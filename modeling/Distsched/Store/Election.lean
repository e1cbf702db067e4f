/-
The two values that leader election keeps on disk (`SaveElectionState` and `LoadElectionState` of `internal/store/store.go`):
the term as eight bytes, most significant first, and the vote as the bytes of its string, written in one transaction. The
database is a parameter, with what it documents of its transactions. Over any sequence of saves, each of which may fail, the
bucket is the register that the cluster model has in its place.
-/
import Distsched.Cluster.Node
import Distsched.Lib.Bucket

open Std (ExtTreeMap)

namespace Distsched.Election

/-! ## Words as bytes -/

/-- `binary.BigEndian.PutUint64` -/
def putUint64 (v : UInt64) : ByteArray :=
  ⟨#[(v >>> 56).toUInt8, (v >>> 48).toUInt8, (v >>> 40).toUInt8, (v >>> 32).toUInt8, (v >>> 24).toUInt8, (v >>> 16).toUInt8,
    (v >>> 8).toUInt8, v.toUInt8]⟩

/-- `binary.BigEndian.Uint64`, which panics on fewer than eight bytes. -/
def uint64 (b : ByteArray) : Option UInt64 := match b.data.toList with
  | b₀ :: b₁ :: b₂ :: b₃ :: b₄ :: b₅ :: b₆ :: b₇ :: _ =>
    some (b₇.toUInt64 ||| b₆.toUInt64 <<< 8 ||| b₅.toUInt64 <<< 16 ||| b₄.toUInt64 <<< 24 ||| b₃.toUInt64 <<< 32 |||
      b₂.toUInt64 <<< 40 ||| b₁.toUInt64 <<< 48 ||| b₀.toUInt64 <<< 56)
  | _ => none

/-- A byte cut out of a word and put back has the bits of its place. -/
theorem getLsbD_byte (v s : UInt64) {k i : Nat} (hs : s.toNat % 64 = k) (hi : i < 64) :
    ((v >>> s).toUInt8.toUInt64 <<< s).toBitVec.getLsbD i = (decide (k ≤ i ∧ i < k + 8) && v.toBitVec.getLsbD i) := by
  have hk : (s.toBitVec % 64).toNat = k := by
    rw [BitVec.toNat_umod]
    exact hs
  simp only [UInt64.toBitVec_shiftLeft, UInt64.toBitVec_shiftRight, UInt8.toBitVec_toUInt64, UInt64.toBitVec_toUInt8]
  rw [BitVec.shiftLeft_eq', BitVec.ushiftRight_eq', hk]
  simp only [BitVec.getLsbD_shiftLeft, BitVec.getLsbD_setWidth, BitVec.getLsbD_ushiftRight]
  by_cases h : k ≤ i
  · have hlt : i - k < 64 := by omega
    have hnot : ¬ i < k := by omega
    have hiff : i - k < 8 ↔ i < k + 8 := by omega
    simp [hi, h, hlt, hnot, hiff, Nat.add_sub_cancel' h]
  · have hlt : i < k := by omega
    simp [h, hlt]

theorem uint64_putUint64 (v : UInt64) : uint64 (putUint64 v) = some v := by
  simp only [putUint64, uint64, Option.some.injEq]
  apply UInt64.toBitVec_inj.1
  apply BitVec.eq_of_getLsbD_eq
  intro i hi
  simp only [UInt64.toBitVec_or, BitVec.getLsbD_or]
  rw [getLsbD_byte v 8 rfl hi, getLsbD_byte v 16 rfl hi, getLsbD_byte v 24 rfl hi, getLsbD_byte v 32 rfl hi,
    getLsbD_byte v 40 rfl hi, getLsbD_byte v 48 rfl hi, getLsbD_byte v 56 rfl hi]
  simp only [UInt8.toBitVec_toUInt64, UInt64.toBitVec_toUInt8, BitVec.getLsbD_setWidth]
  -- the eight places cover the word
  cases v.toBitVec.getLsbD i with
  | false => simp
  | true =>
    simp
    omega

/-! ## The database -/

/-- The calls of bbolt that the store makes, on one bucket. A fault is what befalls a call. -/
structure Bolt where
  /-- the bucket on disk -/
  DB : Type
  /-- the bucket within a transaction -/
  Tx : Type
  Fault : Type
  update : Fault → (Tx → Except String Tx) → DB → Except String Unit × DB
  view {α : Type} : Fault → (Tx → α) → DB → Except String α
  put : Fault → String → ByteArray → Tx → Except String Tx
  get : Tx → String → Option ByteArray

/-- What is documented of them, where `contents` are the values on disk. -/
structure Bolt.Lawful (B : Bolt) (contents : B.DB → String → Option ByteArray) : Prop where
  /-- an update without error has run its function on what was on disk, and kept what came of it -/
  committed {fault : B.Fault} {f : B.Tx → Except String B.Tx} {db : B.DB} : (B.update fault f db).1 = .ok () →
    ∃ tx tx', B.get tx = contents db ∧ f tx = .ok tx' ∧ contents (B.update fault f db).2 = B.get tx'
  /-- one with an error is rolled back, whether the function returned it or the commit did -/
  rolledBack {fault : B.Fault} {f : B.Tx → Except String B.Tx} {db : B.DB} {e : String} :
    (B.update fault f db).1 = .error e → contents (B.update fault f db).2 = contents db
  viewed {α : Type} {fault : B.Fault} {f : B.Tx → α} {db : B.DB} {r : α} : B.view fault f db = .ok r →
    ∃ tx, B.get tx = contents db ∧ f tx = r
  stored {fault : B.Fault} {key : String} {value : ByteArray} {tx tx' : B.Tx} : B.put fault key value tx = .ok tx' →
    B.get tx' = Function.update (B.get tx) key (some value)

/-! ## The calls of the store -/

def metaTerm : String := "election_term"
def metaVotedFor : String := "election_voted_for"

variable (B : Bolt)

/-- What befalls a save: its two writes, and its transaction. -/
structure Faults where
  term : B.Fault
  votedFor : B.Fault
  update : B.Fault

def saveElectionState (faults : Faults B) (term : Int64) (votedFor : String) (db : B.DB) : Except String Unit × B.DB :=
  B.update faults.update (fun tx => do
    let tx ← B.put faults.term metaTerm (putUint64 term.toUInt64) tx
    B.put faults.votedFor metaVotedFor votedFor.toUTF8 tx) db

/-- The term and the vote of a bucket, `0` and `""` where none was saved. No result stands for a panic, or for a vote that is
no text. -/
def electionState (get : String → Option ByteArray) : Option (Int64 × String) := do
  let term ← match get metaTerm with
    | some v => (uint64 v).map UInt64.toInt64
    | none => some 0
  let votedFor ← match get metaVotedFor with
    | some v => String.fromUTF8? v
    | none => some ""
  pure (term, votedFor)

def loadElectionState (fault : B.Fault) (db : B.DB) : Except String (Option (Int64 × String)) :=
  B.view fault (fun tx => electionState (B.get tx)) db

variable {B} {contents : B.DB → String → Option ByteArray} {db : B.DB}

theorem electionState_stored (get : String → Option ByteArray) (term : Int64) (votedFor : String) :
    electionState (Function.update (Function.update get metaTerm (some (putUint64 term.toUInt64))) metaVotedFor
      (some votedFor.toUTF8)) = some (term, votedFor) := by
  have hkeys : metaTerm ≠ metaVotedFor := by decide
  have htext : String.fromUTF8? votedFor.toUTF8 = some votedFor := dif_pos votedFor.isValidUTF8
  simp only [electionState, Function.update_self, Function.update_of_ne hkeys, htext, uint64_putUint64, Option.map_some,
    Int64.toInt64_toUInt64]
  rfl

/-- A save that succeeds has stored both values. -/
theorem saveElectionState_ok (hB : B.Lawful contents) {faults : Faults B} {term : Int64} {votedFor : String}
    (h : (saveElectionState B faults term votedFor db).1 = .ok ()) :
    electionState (contents (saveElectionState B faults term votedFor db).2) = some (term, votedFor) := by
  obtain ⟨tx, tx', -, hf, hkept⟩ := hB.committed h
  cases hterm : B.put faults.term metaTerm (putUint64 term.toUInt64) tx with
  | error e =>
    rw [hterm] at hf
    cases hf
  | ok tx₁ =>
    rw [hterm] at hf
    have hkept : contents (saveElectionState B faults term votedFor db).2 = B.get tx' := hkept
    rw [hkept, hB.stored hf, hB.stored hterm]
    exact electionState_stored ..

/-! ## The register of the election model -/

/-- A call of `persistLocked`: the election state to be saved, and what befalls the save. -/
structure Save (B : Bolt) where
  faults : Faults B
  term : Int64
  votedFor : String

/-- `persistLocked` on a node of the model, and the save it makes on the bucket. -/
def persist (st : Cluster.Node × B.DB) (c : Save B) : Cluster.Node × B.DB :=
  let r := saveElectionState B c.faults c.term c.votedFor st.2
  (.persistLocked r.1.toBool { st.1 with currentTerm := c.term.toInt, votedFor := c.votedFor }, r.2)

/-- The values on disk say what the register holds. -/
def Encodes (get : String → Option ByteArray) (sv : Cluster.Saved) : Prop :=
  ∃ term votedFor, electionState get = some (term, votedFor) ∧ sv = ⟨term.toInt, votedFor⟩

/-- A database without the two values stands for a register that was never set. -/
theorem encodes_unset {get : String → Option ByteArray} (hterm : get metaTerm = none) (hvote : get metaVotedFor = none) :
    Encodes get {} := by
  refine ⟨0, "", ?_, rfl⟩
  simp only [electionState, hterm, hvote]
  rfl

theorem Encodes.persist (hB : B.Lawful contents) {st : Cluster.Node × B.DB} (h : Encodes (contents st.2) st.1.saved)
    (c : Save B) : Encodes (contents (persist st c).2) (persist st c).1.saved := by
  cases hr : (saveElectionState B c.faults c.term c.votedFor st.2).1 with
  | error e =>
    have hsame : contents (Election.persist st c).2 = contents st.2 := hB.rolledBack hr
    have hkept : (Election.persist st c).1.saved = st.1.saved := by
      simp only [Election.persist, hr]
      rfl
    rw [hsame, hkept]
    exact h
  | ok u =>
    have hsaved : (Election.persist st c).1.saved = ⟨c.term.toInt, c.votedFor⟩ := by
      simp only [Election.persist, hr]
      rfl
    exact ⟨c.term, c.votedFor, saveElectionState_ok hB hr, hsaved⟩

theorem Encodes.persists (hB : B.Lawful contents) (l : List (Save B)) {st : Cluster.Node × B.DB}
    (h : Encodes (contents st.2) st.1.saved) :
    Encodes (contents (l.foldl Election.persist st).2) (l.foldl Election.persist st).1.saved := by
  induction l generalizing st with
  | nil => exact h
  | cons c l ih => exact ih (h.persist hB c)

/-- However many saves a node makes, and whichever of them fail, a load that does not fail itself gives back the term and the
vote that the register of the model holds: those of the last save that did not fail, bit for bit. A new process starts
with them. -/
theorem disk_is_register (hB : B.Lawful contents) (l : List (Save B)) {n : Cluster.Node}
    (h : Encodes (contents db) n.saved) :
    let st := l.foldl persist (n, db)
    ∃ term votedFor, st.1.saved = ⟨term.toInt, votedFor⟩ ∧
      (∀ fault, (∃ e, loadElectionState B fault st.2 = .error e) ∨
        loadElectionState B fault st.2 = .ok (some (term, votedFor))) ∧
      ∀ (inc : Int → Int) (c : Cluster.Config) (sv : Cluster.Saves), 1 < c.majority →
        (Cluster.Node.start inc c true sv st.1.saved).currentTerm = term.toInt ∧
        (Cluster.Node.start inc c true sv st.1.saved).votedFor = votedFor := by
  have hrun : Encodes (contents (l.foldl persist (n, db)).2) (l.foldl persist (n, db)).1.saved := Encodes.persists hB l h
  obtain ⟨term, votedFor, hload, hsaved⟩ := hrun
  refine ⟨term, votedFor, hsaved, fun fault => ?_, fun inc c sv hmany => ?_⟩
  · cases hr : loadElectionState B fault (l.foldl persist (n, db)).2 with
    | error e => exact .inl ⟨e, rfl⟩
    | ok r =>
      obtain ⟨tx, htx, hval⟩ := hB.viewed hr
      rw [htx, hload] at hval
      exact .inr (congrArg Except.ok hval.symm)
  · rw [hsaved]
    have hnot : ¬ c.majority ≤ 1 := Nat.not_le.2 hmany
    simp [Cluster.Node.start_eq_launch, Cluster.Node.launch, hnot]

/-! ## A bucket in memory -/

abbrev Meta := ExtTreeMap String ByteArray

def Meta.get (b : Meta) (key : String) : Option ByteArray := b[key]?

theorem Meta.get_insert (b : Meta) (key : String) (value : ByteArray) :
    Meta.get (b.insert key value) = Function.update (Meta.get b) key (some value) := by
  funext x
  rw [Meta.get, ExtTreeMap.getElem?_insert, Function.update_apply]
  exact if_congr (compare_keys.trans eq_comm) rfl rfl

/-- The changes of an update are kept if its function returns no error and the commit succeeds. -/
def Meta.update (commit : Option String) (f : Meta → Except String Meta) (b : Meta) : Except String Unit × Meta :=
  match f b with
  | .error e => (.error e, b)
  | .ok b' => match commit with
    | some e => (.error e, b)
    | none => (.ok (), b')

/-- A database whose calls fail with the error that befalls them. -/
def inMemory : Bolt where
  DB := Meta
  Tx := Meta
  Fault := Option String
  update := Meta.update
  view fault f b := match fault with
    | some e => .error e
    | none => .ok (f b)
  put fault key value b := match fault with
    | some e => .error e
    | none => .ok (b.insert key value)
  get := Meta.get

theorem Meta.update_cases (commit : Option String) (f : Meta → Except String Meta) (b : Meta) :
    ((∃ e, (Meta.update commit f b).1 = .error e) ∧ (Meta.update commit f b).2 = b) ∨
    ∃ b', f b = .ok b' ∧ Meta.update commit f b = (.ok (), b') := by
  unfold Meta.update
  cases f b with
  | error e => exact .inl ⟨⟨e, rfl⟩, rfl⟩
  | ok b' =>
    cases commit with
    | some e => exact .inl ⟨⟨e, rfl⟩, rfl⟩
    | none => exact .inr ⟨b', rfl, rfl⟩

theorem inMemory_lawful : inMemory.Lawful Meta.get where
  committed {commit f b} h := by
    obtain ⟨⟨e, he⟩, -⟩ | ⟨b', hf, hb⟩ := Meta.update_cases commit f b
    · cases he.symm.trans h
    · exact ⟨b, b', rfl, hf, congrArg (fun r => Meta.get r.2) hb⟩
  rolledBack {commit f b e} h := by
    obtain ⟨-, hb⟩ | ⟨b', -, hb⟩ := Meta.update_cases commit f b
    · exact congrArg Meta.get hb
    · cases (congrArg Prod.fst hb).symm.trans h
  viewed {α fault f b r} h := by
    cases fault with
    | some e => cases h
    | none => exact ⟨b, rfl, Except.ok.inj h⟩
  stored {fault key value b b'} h := by
    cases fault with
    | some e => cases h
    | none =>
      cases h
      exact Meta.get_insert b key value

/-- A save, one that fails at its second write, and one that fails at its commit. -/
def saves : List (Save inMemory) :=
  [⟨⟨none, none, none⟩, 7, "a"⟩, ⟨⟨none, some "disk full", none⟩, 8, "b"⟩, ⟨⟨none, none, some "disk full"⟩, -1, "c"⟩]

theorem disk_is_register_saves : ∃ term, term.toInt = 7 ∧
    loadElectionState inMemory none (saves.foldl persist ({}, (∅ : Meta))).2 = .ok (some (term, "a")) := by
  have hunset : Encodes (Meta.get ∅) {} := encodes_unset ExtTreeMap.getElem?_empty ExtTreeMap.getElem?_empty
  obtain ⟨term, votedFor, hsaved, hload, -⟩ := disk_is_register inMemory_lawful saves (n := {}) hunset
  have hlast : (saves.foldl persist ({}, (∅ : Meta))).1.saved = ⟨7, "a"⟩ := by decide +kernel
  obtain ⟨hterm, rfl⟩ := Cluster.Saved.mk.inj (hsaved.symm.trans hlast)
  refine ⟨term, hterm, (hload none).resolve_left ?_⟩
  rintro ⟨e, he⟩
  cases he

end Distsched.Election

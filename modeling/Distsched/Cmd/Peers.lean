/-
The lists that the commands take as flags (`cmd/scheduler/main.go`, `cmd/worker/main.go`, `cmd/schedulerctl/main.go`): pieces
between commas, with white space around them and empty ones among them, and the members `id=addr` of the flag `--peers`.

What `parseMembers` gives is told by a grammar of the pieces, errors included. The lists that it can give are those of
well-formed members, and it reads each of them back from the text that names them. How the verb `%q` of `fmt` quotes the
piece that an error names is a parameter.
-/
import Distsched.Lib.Text

namespace Distsched.Cmd

open Text

/-! ## The flags -/

/-- `unicode.IsSpace` -/
def isSpace (c : Char) : Bool :=
  let r := c.toNat
  if r ≤ 0xFF then (0x09 ≤ r && r ≤ 0x0D) || r == 0x20 || r == 0x85 || r == 0xA0
  else r == 0x1680 || (0x2000 ≤ r && r ≤ 0x200A) || r == 0x2028 || r == 0x2029 || r == 0x202F || r == 0x205F || r == 0x3000

/-- `strings.TrimSpace` -/
def trimSpace (s : List Char) : List Char := trim isSpace s

/-- The loop over the pieces of a list: each is trimmed, and an empty one is passed over. -/
def pieces (s : List Char) : List (List Char) := ((s.splitOn ',').map trimSpace).filter (· ≠ [])

/-- The seed list of a worker (`--schedulers`) and of the client (`--addr`), and the predecessors of a job (`--depends-on`). -/
def splitList (s : String) : List String := (pieces s.toList).map String.ofList

/-- A scheduler replica: its ID and its address. -/
abbrev Member := String × String

variable (quote : String → String)

/-- The error over a piece that is no member. -/
def invalidMember (part : List Char) : String := "invalid member " ++ quote (String.ofList part) ++ " (want id=addr)"

def parseMember (part : List Char) : Except String Member :=
  match cut '=' part with
  | none => .error (invalidMember quote part)
  | some (id, addr) =>
    if id = [] ∨ addr = [] then .error (invalidMember quote part)
    else .ok (String.ofList (trimSpace id), String.ofList (trimSpace addr))

/-- The members of `--peers`; none stand for single-node mode. -/
def parseMembers (s : String) : Except String (List Member) :=
  let s := trimSpace s.toList
  if s = [] then .ok [] else (pieces s).mapM (parseMember quote)

example : parseMembers id " n1 = a:1 ,, n2=b:2 " = .ok [("n1", "a:1"), ("n2", "b:2")] := by decide +kernel

/-! ## Pieces -/

theorem isSpace_comma : isSpace ',' = false := by decide
theorem isSpace_eq : isSpace '=' = false := by decide

theorem pieces_trimSpace (s : List Char) : pieces (trimSpace s) = pieces s := by
  rw [pieces, pieces, trimSpace, show trimSpace = trim isSpace from rfl, map_trim_splitOn_trim isSpace_comma]

/-- A text of nothing but white space has no pieces, so it needs no case of its own. -/
theorem parseMembers_eq (s : String) : parseMembers quote s = (pieces s.toList).mapM (parseMember quote) := by
  simp only [parseMembers, pieces_trimSpace]
  split
  · rename_i h
    rw [← pieces_trimSpace, h]
    rfl
  · rfl

/-! ## The grammar of the members -/

/-- An ID and an address that the flag can spell: not empty, with no white space at their ends, no comma in them and no equals
sign in the ID. -/
structure WellFormed (m : Member) : Prop where
  id : m.1 ≠ ""
  address : m.2 ≠ ""
  id_tight : Tight isSpace m.1.toList
  address_tight : Tight isSpace m.2.toList
  id_eq : '=' ∉ m.1.toList
  id_comma : ',' ∉ m.1.toList
  address_comma : ',' ∉ m.2.toList

/-- A piece that spells a member: ID, equals sign and address, with white space around each. -/
structure Spells (part : List Char) (m : Member) : Prop where
  wellFormed : WellFormed m
  spelled : ∃ a b c d, Blank isSpace a ∧ Blank isSpace b ∧ Blank isSpace c ∧ Blank isSpace d ∧
    part = a ++ (m.1.toList ++ b ++ '=' :: (c ++ m.2.toList)) ++ d

/-- What a list of pieces says: its members in order, or the first piece that is neither blank nor a member. -/
inductive Denotes : List (List Char) → Except String (List Member) → Prop
  | nil : Denotes [] (.ok [])
  | blank {part : List Char} {parts : List (List Char)} {r : Except String (List Member)} (h : Blank isSpace part) :
    Denotes parts r → Denotes (part :: parts) r
  | member {part : List Char} {parts : List (List Char)} {m : Member} {r : Except String (List Member)} (h : Spells part m) :
    Denotes parts r → Denotes (part :: parts) (r.map (m :: ·))
  | invalid {part : List Char} {parts : List (List Char)} (h : ¬ Blank isSpace part) (hm : ∀ m, ¬ Spells part m) :
    Denotes (part :: parts) (.error (invalidMember quote (trimSpace part)))

variable {quote} {part : List Char} {parts : List (List Char)} {m : Member}

/-- What parsing one piece comes to. -/
theorem parseMember_ok_iff : parseMember quote part = .ok m ↔ ∃ id addr, '=' ∉ id ∧ part = id ++ '=' :: addr ∧ id ≠ [] ∧
    addr ≠ [] ∧ m = (String.ofList (trimSpace id), String.ofList (trimSpace addr)) := by
  unfold parseMember
  constructor
  · intro h
    split at h
    · cases h
    · rename_i id addr hcut
      obtain ⟨hid, hpart⟩ := cut_eq_some_iff.1 hcut
      split at h
      · cases h
      · rename_i hne
        cases h
        exact ⟨id, addr, hid, hpart, fun h => hne (.inl h), fun h => hne (.inr h), rfl⟩
  · rintro ⟨id, addr, hid, rfl, hne, hne', rfl⟩
    simp only [cut_append hid, hne, hne', or_self, if_false]

theorem parseMember_error (h : ∀ m, parseMember quote part ≠ .ok m) :
    parseMember quote part = .error (invalidMember quote part) := by
  unfold parseMember at h ⊢
  split
  · rfl
  · rename_i hcut
    split
    · rfl
    · rename_i hne
      simp [hcut, hne] at h

theorem Spells.parse (h : Spells part m) : parseMember quote (trimSpace part) = .ok m := by
  obtain ⟨hm, a, b, c, d, ha, hb, hc, hd, rfl⟩ := h
  have hid : m.1.toList ≠ [] := by simpa using hm.id
  have haddress : m.2.toList ≠ [] := by simpa using hm.address
  have htight : Tight isSpace (m.1.toList ++ b ++ '=' :: (c ++ m.2.toList)) := by
    have := hm.id_tight.append hm.address_tight hid haddress (b ++ '=' :: c)
    simpa using this
  have heq : '=' ∉ m.1.toList ++ b := by
    have hb : '=' ∉ b := fun h => by simpa [isSpace_eq] using hb _ h
    simp [hm.id_eq, hb]
  rw [trimSpace, trim_append_right hd, trim_append_left ha, trim_tight htight, parseMember_ok_iff]
  refine ⟨_, _, heq, rfl, by simp [hid], by simp [haddress], ?_⟩
  rw [trimSpace, trimSpace, trim_append_right hb, trim_append_left hc, trim_tight hm.id_tight, trim_tight hm.address_tight]
  simp

/-- The ends of a trimmed piece are no white space, so neither side of the equals sign is blank. -/
theorem parseMember_spells (hcomma : ',' ∉ part) (h : parseMember quote (trimSpace part) = .ok m) : Spells part m := by
  obtain ⟨id, addr, heq, htrim, hid, haddr, rfl⟩ := parseMember_ok_iff.1 h
  unfold trimSpace at *
  obtain ⟨htight, a, d, ha, hd, rfl⟩ := trim_eq_iff.1 htrim
  constructor
  · constructor
    · have hblank : ¬ Blank isSpace id := htight.not_blank_left hid
      simpa [trim_eq_nil_iff] using hblank
    · have hblank : ¬ Blank isSpace addr := by
        rw [List.append_cons] at htight
        exact htight.not_blank_right haddr
      simpa [trim_eq_nil_iff] using hblank
    · simpa using tight_trim isSpace id
    · simpa using tight_trim isSpace addr
    · simpa using fun h => heq (mem_of_mem_trim h)
    · simpa using fun h => hcomma (by simp [mem_of_mem_trim h])
    · simpa using fun h => hcomma (by simp [mem_of_mem_trim h])
  · obtain ⟨a', b, ha', hb, hidEq⟩ := exists_padding isSpace id
    obtain ⟨c, d', hc, hd', haddrEq⟩ := exists_padding isSpace addr
    refine ⟨a ++ a', b, c, d' ++ d, ha.append ha', hb, hc, hd'.append hd, ?_⟩
    simp only [String.toList_ofList]
    generalize trim isSpace id = I at hidEq
    generalize trim isSpace addr = A at haddrEq
    simp [hidEq, haddrEq]

variable (quote) in
/-- The members of a list of pieces. -/
def members (parts : List (List Char)) : Except String (List Member) :=
  ((parts.map trimSpace).filter (· ≠ [])).mapM (parseMember quote)

theorem members_blank (h : Blank isSpace part) : members quote (part :: parts) = members quote parts := by
  simp [members, trimSpace, trim_blank h]

theorem members_cons (h : ¬ Blank isSpace part) :
    members quote (part :: parts) = (parseMember quote (trimSpace part)).bind fun m => (members quote parts).map (m :: ·) := by
  have hne : trimSpace part ≠ [] := fun hnil => h (trim_eq_nil_iff.1 hnil)
  rw [members, List.map_cons, List.filter_cons_of_pos (by simpa using hne), List.mapM_cons, members]
  cases parseMember quote (trimSpace part) with
  | error e => rfl
  | ok m => cases ((parts.map trimSpace).filter (· ≠ [])).mapM (parseMember quote) <;> rfl

theorem Spells.not_blank (h : Spells part m) : ¬ Blank isSpace part := by
  intro hblank
  have hparse : parseMember id (trimSpace part) = .ok m := h.parse
  rw [trimSpace, trim_blank hblank] at hparse
  cases hparse

/-- The pieces of a list say what its members are, and nothing else. -/
theorem denotes_iff {r : Except String (List Member)} (hcomma : ∀ part ∈ parts, ',' ∉ part) :
    Denotes quote parts r ↔ members quote parts = r := by
  constructor
  · intro h
    induction h with
    | nil => rfl
    | blank h _ ih =>
      rw [members_blank h]
      exact ih fun part hpart => hcomma part (by simp [hpart])
    | member h _ ih =>
      rw [members_cons h.not_blank, h.parse, ih fun part hpart => hcomma part (by simp [hpart])]
      rfl
    | @invalid part parts h hm =>
      have hpart : ',' ∉ part := hcomma part (by simp)
      have hnot : ∀ m, parseMember quote (trimSpace part) ≠ .ok m := fun m hok => hm m (parseMember_spells hpart hok)
      rw [members_cons h, parseMember_error hnot]
      rfl
  · rintro rfl
    induction parts with
    | nil => exact .nil
    | cons part parts ih =>
      have hpart : ',' ∉ part := hcomma part (by simp)
      have ih := ih fun part hpart => hcomma part (by simp [hpart])
      by_cases hblank : Blank isSpace part
      · rw [members_blank hblank]
        exact .blank hblank ih
      · by_cases hm : ∃ m, Spells part m
        · obtain ⟨m, hm⟩ := hm
          rw [members_cons hblank, hm.parse]
          exact .member hm ih
        · have hnone : ∀ m, ¬ Spells part m := fun m h => hm ⟨m, h⟩
          rw [members_cons hblank, parseMember_error fun m hok => hnone m (parseMember_spells hpart hok)]
          exact .invalid hblank hnone

/-- Whatever the flag says, the members that the scheduler starts with, or the error that it stops with, are what the pieces
between the commas say. -/
theorem parseMembers_exact (quote : String → String) (s : String) (r : Except String (List Member)) :
    parseMembers quote s = r ↔ Denotes quote (s.toList.splitOn ',') r := by
  rw [denotes_iff fun part => not_mem_of_mem_splitOn, parseMembers_eq]
  rfl

/-! ## Round trip -/

/-- The members as the flag names them. -/
def format (ms : List Member) : String := ",".intercalate (ms.map fun m => m.1 ++ "=" ++ m.2)

theorem Denotes.wellFormed {ms : List Member} (h : Denotes quote parts (.ok ms)) : ∀ m ∈ ms, WellFormed m := by
  generalize hr : Except.ok ms = r at h
  induction h generalizing ms with
  | nil =>
    cases hr
    simp
  | blank _ _ ih => exact ih hr
  | @member _ _ m r h _ ih =>
    cases r with
    | error e => cases hr
    | ok rest =>
      cases hr
      simpa [h.wellFormed] using ih rfl
  | invalid => cases hr

theorem denotes_format {ms : List Member} (h : ∀ m ∈ ms, WellFormed m) :
    Denotes quote (ms.map fun m => m.1.toList ++ '=' :: m.2.toList) (.ok ms) := by
  induction ms with
  | nil => exact .nil
  | cons m ms ih =>
    have hspells : Spells (m.1.toList ++ '=' :: m.2.toList) m :=
      ⟨h m (by simp), [], [], [], [], nofun, nofun, nofun, nofun, by simp⟩
    exact .member hspells (ih fun m hm => h m (by simp [hm]))

theorem splitOn_format {ms : List Member} (h : ∀ m ∈ ms, WellFormed m) (hne : ms ≠ []) :
    (format ms).toList.splitOn ',' = ms.map fun m => m.1.toList ++ '=' :: m.2.toList := by
  have hlist : (format ms).toList = [','].intercalate (ms.map fun m => m.1.toList ++ '=' :: m.2.toList) := by
    simp [format, String.toList_intercalate, Function.comp_def]
  rw [hlist]
  apply List.splitOn_intercalate
  · intro part hpart
    obtain ⟨m, hm, rfl⟩ := List.mem_map.1 hpart
    simp [(h m hm).id_comma, (h m hm).address_comma]
  · simpa using hne

theorem parseMembers_format {ms : List Member} (h : ∀ m ∈ ms, WellFormed m) : parseMembers quote (format ms) = .ok ms := by
  by_cases hne : ms = []
  · subst hne
    rfl
  · rw [parseMembers_eq]
    have hreads : Denotes quote _ (.ok ms) := denotes_format h
    rw [← splitOn_format h hne, denotes_iff fun part => not_mem_of_mem_splitOn] at hreads
    exact hreads

/-- The lists of members that the flag can give are those of well-formed members, and each of them is read back from the
text that names it. -/
theorem members_round_trip (quote : String → String) (ms : List Member) :
    ((∃ s, parseMembers quote s = .ok ms) ↔ ∀ m ∈ ms, WellFormed m) ∧
    ((∃ s, parseMembers quote s = .ok ms) ↔ parseMembers quote (format ms) = .ok ms) := by
  have hsome : (∃ s, parseMembers quote s = .ok ms) → ∀ m ∈ ms, WellFormed m := by
    rintro ⟨s, h⟩
    rw [parseMembers_eq] at h
    exact ((denotes_iff fun part => not_mem_of_mem_splitOn).2 h).wellFormed
  constructor
  · exact ⟨hsome, fun h => ⟨_, parseMembers_format h⟩⟩
  · exact ⟨fun h => parseMembers_format (hsome h), fun h => ⟨_, h⟩⟩

/-- A piece that a plain list can give. -/
structure Piece (t : String) : Prop where
  ne : t ≠ ""
  tight : Tight isSpace t.toList
  comma : ',' ∉ t.toList

theorem piece_of_mem_splitList {s t : String} (h : t ∈ splitList s) : Piece t := by
  simp only [splitList, pieces, List.mem_map, List.mem_filter] at h
  obtain ⟨_, ⟨⟨part, hpart, rfl⟩, hne⟩, rfl⟩ := h
  unfold trimSpace at *
  constructor
  · simpa using hne
  · simpa using tight_trim isSpace part
  · have hcomma : ',' ∉ part := not_mem_of_mem_splitOn hpart
    simpa using fun h => hcomma (mem_of_mem_trim h)

theorem splitList_intercalate {ts : List String} (h : ∀ t ∈ ts, Piece t) : splitList (",".intercalate ts) = ts := by
  by_cases hts : ts = []
  · subst hts
    decide +kernel
  · have hsplit : (",".intercalate ts).toList.splitOn ',' = ts.map String.toList := by
      rw [String.toList_intercalate]
      apply List.splitOn_intercalate
      · intro l hl
        obtain ⟨t, ht, rfl⟩ := List.mem_map.1 hl
        exact (h t ht).comma
      · simpa using hts
    have hpieces : pieces (",".intercalate ts).toList = ts.map String.toList := by
      have htrim : ts.map (trimSpace ∘ String.toList) = ts.map String.toList :=
        List.map_congr_left fun t ht => trim_tight (h t ht).tight
      rw [pieces, hsplit, List.map_map, htrim, List.filter_eq_self]
      intro l hl
      obtain ⟨t, ht, rfl⟩ := List.mem_map.1 hl
      simpa using (h t ht).ne
    rw [splitList, hpieces]
    simp [Function.comp_def]

/-- The same of the plain lists. -/
theorem splitList_round_trip (ts : List String) :
    ((∃ s, splitList s = ts) ↔ ∀ t ∈ ts, Piece t) ∧ ((∃ s, splitList s = ts) ↔ splitList (",".intercalate ts) = ts) := by
  have hsome : (∃ s, splitList s = ts) → ∀ t ∈ ts, Piece t := by
    rintro ⟨s, rfl⟩ t ht
    exact piece_of_mem_splitList ht
  constructor
  · exact ⟨hsome, fun h => ⟨_, splitList_intercalate h⟩⟩
  · exact ⟨fun h => splitList_intercalate (hsome h), fun h => ⟨_, h⟩⟩

end Distsched.Cmd

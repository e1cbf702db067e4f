/-
Lists of symbols cut at separators, with padding around the pieces: what trimming gives back, the pieces around the first
separator, and that padding at the ends of a list reaches only the outer ones of its pieces.
-/
import Mathlib.Data.List.DropRight

namespace Text

variable {α : Type}

/-! ## Trimming -/

section Trim

variable {p : α → Bool} {l a b t : List α}

/-- A list of padding. -/
def Blank (p : α → Bool) (l : List α) : Prop := ∀ c ∈ l, p c

/-- A list with no padding at its ends. -/
structure Tight (p : α → Bool) (l : List α) : Prop where
  head : ∀ c ∈ l.head?, p c = false
  last : ∀ c ∈ l.getLast?, p c = false

def trim (p : α → Bool) (l : List α) : List α := (l.dropWhile p).rdropWhile p

theorem Blank.append (ha : Blank p a) (hb : Blank p b) : Blank p (a ++ b) := fun c hc =>
  (List.mem_append.1 hc).elim (ha c) (hb c)

/-- What a tight list starts with is not blank. -/
theorem Tight.not_blank_left (h : Tight p (a ++ b)) (hne : a ≠ []) : ¬ Blank p a := by
  intro hblank
  obtain ⟨c, a, rfl⟩ := List.exists_cons_of_ne_nil hne
  have htrue : p c := hblank c (by simp)
  simp [h.head c rfl] at htrue

/-- What a tight list ends with is not blank. -/
theorem Tight.not_blank_right (h : Tight p (a ++ b)) (hne : b ≠ []) : ¬ Blank p b := by
  intro hblank
  have hlast : b.getLast hne ∈ (a ++ b).getLast? := by
    rw [List.getLast?_append_of_ne_nil _ hne, List.getLast?_eq_some_getLast hne]
    rfl
  have htrue : p (b.getLast hne) := hblank _ (List.getLast_mem hne)
  simp [h.last _ hlast] at htrue

theorem dropWhile_blank (ha : Blank p a) (l : List α) : (a ++ l).dropWhile p = l.dropWhile p := by
  induction a with
  | nil => rfl
  | cons c a ih =>
    have hc : p c := ha c (by simp)
    rw [List.cons_append, List.dropWhile_cons_of_pos hc]
    exact ih fun x hx => ha x (by simp [hx])

theorem rdropWhile_blank (hb : Blank p b) (l : List α) : (l ++ b).rdropWhile p = l.rdropWhile p := by
  have hrev : Blank p b.reverse := fun c hc => hb c (List.mem_reverse.1 hc)
  simp only [List.rdropWhile, List.reverse_append, dropWhile_blank hrev]

theorem Tight.dropWhile (h : Tight p t) : t.dropWhile p = t := by
  cases t with
  | nil => rfl
  | cons c t =>
    have hc : p c = false := h.head c rfl
    exact List.dropWhile_cons_of_neg (by simp [hc])

theorem Tight.rdropWhile (h : Tight p t) : t.rdropWhile p = t := by
  have hrev : Tight p t.reverse := ⟨by simpa using h.last, by simpa using h.head⟩
  simp [List.rdropWhile, hrev.dropWhile]

theorem trim_tight (h : Tight p t) : trim p t = t := by
  rw [trim, h.dropWhile, h.rdropWhile]

/-- Tight ends make a tight list, whatever stands between them. -/
theorem Tight.append {r : List α} (h : Tight p t) (hr : Tight p r) (hne : t ≠ []) (hner : r ≠ []) (m : List α) :
    Tight p (t ++ m ++ r) := by
  constructor
  · intro c hc
    apply h.head
    rwa [List.append_assoc, List.head?_append_of_ne_nil _ hne] at hc
  · intro c hc
    apply hr.last
    rwa [List.getLast?_append_of_ne_nil _ hner] at hc

/-- Padding before the list is trimmed away. -/
theorem trim_append_left (ha : Blank p a) (l : List α) : trim p (a ++ l) = trim p l := by
  rw [trim, dropWhile_blank ha, trim]

theorem trim_blank (ha : Blank p a) : trim p a = [] := by
  have h := trim_append_left ha []
  rwa [List.append_nil] at h

/-- Padding after the list is trimmed away. -/
theorem trim_append_right (hb : Blank p b) (l : List α) : trim p (l ++ b) = trim p l := by
  rw [trim, List.dropWhile_append]
  split
  · rename_i h
    have hl : Blank p l := List.dropWhile_eq_nil_iff.1 (List.isEmpty_iff.1 h)
    rw [trim_blank hl]
    exact trim_blank hb
  · exact rdropWhile_blank hb _

theorem tight_trim (p : α → Bool) (l : List α) : Tight p (trim p l) := by
  constructor
  · intro c hc
    obtain ⟨d, hd⟩ := List.rdropWhile_prefix p (l.dropWhile p)
    have hhead : (l.dropWhile p).head? = some c := by
      rw [← hd]
      exact List.mem_head?_append_of_mem_head? hc
    simpa [hhead] using List.head?_dropWhile_not p l
  · intro c hc
    obtain ⟨hne, rfl⟩ := List.mem_getLast?_eq_getLast hc
    exact Bool.eq_false_iff.2 (List.rdropWhile_last_not p _ hne)

/-- Trimming takes off padding and nothing else. -/
theorem exists_padding (p : α → Bool) (l : List α) : ∃ a b, Blank p a ∧ Blank p b ∧ l = a ++ trim p l ++ b := by
  have hl : l = l.takeWhile p ++ trim p l ++ (l.dropWhile p).rtakeWhile p := by
    rw [List.append_assoc, trim, List.rdropWhile_append_rtakeWhile, List.takeWhile_append_dropWhile]
  exact ⟨_, _, fun c hc => List.mem_takeWhile_imp hc, fun c hc => List.mem_rtakeWhile_imp hc, hl⟩

theorem mem_of_mem_trim {c : α} (h : c ∈ trim p l) : c ∈ l := by
  obtain ⟨a, b, -, -, hl⟩ := exists_padding p l
  rw [hl]
  simp [h]

/-- The one tight list with only padding around it. -/
theorem trim_eq_iff : trim p l = t ↔ Tight p t ∧ ∃ a b, Blank p a ∧ Blank p b ∧ l = a ++ t ++ b := by
  constructor
  · rintro rfl
    exact ⟨tight_trim p l, exists_padding p l⟩
  · rintro ⟨ht, a, b, ha, hb, rfl⟩
    rw [trim_append_right hb, trim_append_left ha, trim_tight ht]

theorem trim_eq_nil_iff : trim p l = [] ↔ Blank p l := by
  constructor
  · intro h
    obtain ⟨a, b, ha, hb, hl⟩ := exists_padding p l
    rw [h, List.append_nil] at hl
    rw [hl]
    exact ha.append hb
  · exact trim_blank

end Trim

/-! ## Cutting at the first separator -/

section Cut

variable [DecidableEq α] {sep : α} {l a b : List α}

/-- What stands before and after the first separator, if there is one. -/
def cut (sep : α) : List α → Option (List α × List α)
  | [] => none
  | c :: l => if c = sep then some ([], l) else (cut sep l).map fun r => (c :: r.1, r.2)

theorem cut_append (ha : sep ∉ a) (b : List α) : cut sep (a ++ sep :: b) = some (a, b) := by
  induction a with
  | nil => simp [cut]
  | cons c a ih =>
    obtain ⟨hc, ha⟩ : sep ≠ c ∧ sep ∉ a := by simpa using ha
    rw [List.cons_append, cut, if_neg hc.symm, ih ha]
    rfl

theorem cut_eq_some_iff : cut sep l = some (a, b) ↔ sep ∉ a ∧ l = a ++ sep :: b := by
  constructor
  · intro h
    induction l generalizing a with
    | nil => cases h
    | cons c l ih =>
      rw [cut] at h
      split at h
      · rename_i hc
        cases h
        simp [hc]
      · rename_i hc
        obtain ⟨⟨a', b'⟩, hr, heq⟩ := Option.map_eq_some_iff.1 h
        cases heq
        obtain ⟨hmem, rfl⟩ := ih hr
        simp [hmem, Ne.symm hc]
  · rintro ⟨ha, rfl⟩
    exact cut_append ha b

end Cut

/-! ## Pieces between separators -/

section Split

variable [DecidableEq α] {p : α → Bool} {sep : α} {a b : List α}

theorem splitOn_cons_of_ne {c : α} (hc : c ≠ sep) (l : List α) :
    (c :: l).splitOn sep = (l.splitOn sep).modifyHead (c :: ·) := by
  rw [List.splitOn, List.splitOnP_cons_eq_if_modifyHead, if_neg (by simpa using hc)]
  rfl

theorem splitOn_cons_self (l : List α) : (sep :: l).splitOn sep = [] :: l.splitOn sep := by
  rw [List.splitOn, List.splitOnP_cons_eq_if_modifyHead, if_pos (by simp)]
  rfl

theorem not_mem_of_mem_splitOn {l : List α} : ∀ {part : List α}, part ∈ l.splitOn sep → sep ∉ part := by
  induction l with
  | nil => simp [List.splitOn]
  | cons c l ih =>
    intro part h
    by_cases hc : c = sep
    · subst hc
      rw [splitOn_cons_self] at h
      obtain rfl | h := List.mem_cons.1 h
      · simp
      · exact ih h
    · rw [splitOn_cons_of_ne hc] at h
      cases hl : l.splitOn sep with
      | nil => simp [hl] at h
      | cons first rest =>
        rw [hl] at ih h
        obtain rfl | h := List.mem_cons.1 h
        · simp [Ne.symm hc, ih (List.mem_cons_self)]
        · exact ih (List.mem_cons_of_mem _ h)

/-- What holds no separator goes to the end of the last piece. -/
theorem splitOn_append (hb : sep ∉ b) (l : List α) :
    ∃ init last, l.splitOn sep = init ++ [last] ∧ (l ++ b).splitOn sep = init ++ [last ++ b] := by
  induction l with
  | nil =>
    refine ⟨[], [], by simp [List.splitOn], ?_⟩
    refine List.splitOnP_eq_singleton fun c hc => ?_
    have hne : c ≠ sep := fun h => hb (h ▸ hc)
    simpa using hne
  | cons c l ih =>
    obtain ⟨init, last, hl, hlb⟩ := ih
    by_cases hc : c = sep
    · subst hc
      refine ⟨[] :: init, last, ?_, ?_⟩
      · simp [splitOn_cons_self, hl]
      · simp [splitOn_cons_self, hlb]
    · rw [List.cons_append, splitOn_cons_of_ne hc, splitOn_cons_of_ne hc, hl, hlb]
      cases init with
      | nil => exact ⟨[], c :: last, rfl, rfl⟩
      | cons first init => exact ⟨(c :: first) :: init, last, rfl, rfl⟩

/-- Padding before a list is trimmed off its first piece. -/
theorem map_trim_splitOn_append_left (hsep : p sep = false) (ha : Blank p a) (l : List α) :
    ((a ++ l).splitOn sep).map (trim p) = (l.splitOn sep).map (trim p) := by
  induction a with
  | nil => rfl
  | cons c a ih =>
    have hc : p c := ha c (by simp)
    have hne : c ≠ sep := fun h => by simp [h, hsep] at hc
    rw [List.cons_append, splitOn_cons_of_ne hne, ← ih fun x hx => ha x (by simp [hx])]
    cases (a ++ l).splitOn sep with
    | nil => rfl
    | cons part parts =>
      have hpart : trim p (c :: part) = trim p part := trim_append_left (a := [c]) (by simp [Blank, hc]) part
      simp [hpart]

/-- Padding after a list is trimmed off its last piece. -/
theorem map_trim_splitOn_append_right (hsep : p sep = false) (hb : Blank p b) (l : List α) :
    ((l ++ b).splitOn sep).map (trim p) = (l.splitOn sep).map (trim p) := by
  have hmem : sep ∉ b := fun h => by simpa [hsep] using hb sep h
  obtain ⟨init, last, hl, hlb⟩ := splitOn_append hmem l
  rw [hl, hlb]
  simp [trim_append_right hb]

/-- Trimming the list before it is split makes no difference to its trimmed pieces. -/
theorem map_trim_splitOn_trim (hsep : p sep = false) (l : List α) :
    ((trim p l).splitOn sep).map (trim p) = (l.splitOn sep).map (trim p) := by
  obtain ⟨a, b, ha, hb, hl⟩ := exists_padding p l
  generalize trim p l = t at hl
  rw [hl, map_trim_splitOn_append_right hsep hb, map_trim_splitOn_append_left hsep ha]

end Split

end Text

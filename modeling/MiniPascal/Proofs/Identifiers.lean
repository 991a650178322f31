import Mathlib.Data.List.Nodup
import MiniPascal.C.Literal

/-!
# Names as C writes them

A reserved word is written with an underscore behind it, and every other name as it is. A settled
name is one that no other name is written like.
-/

namespace MiniPascal.C

open List

theorem reserved_append : ∀ w ∈ reserved, w ++ "_" ∉ reserved := by decide +kernel

variable {n : String}

theorem identifier_of_mem (h : n ∈ reserved) : identifier n = n ++ "_" :=
  if_pos (contains_iff_mem.mpr h)

theorem identifier_of_not_mem (h : n ∉ reserved) : identifier n = n :=
  if_neg fun hn => h (contains_iff_mem.mp hn)

theorem identifier_eq_iff {m : String} : identifier n = identifier m ↔
    n = m ∨ (n ∈ reserved ∧ m = n ++ "_") ∨ (m ∈ reserved ∧ n = m ++ "_") := by
  constructor
  · intro h
    by_cases hn : n ∈ reserved <;> by_cases hm : m ∈ reserved
    · rw [identifier_of_mem hn, identifier_of_mem hm, String.append_left_inj] at h
      exact .inl h
    · rw [identifier_of_mem hn, identifier_of_not_mem hm] at h
      exact .inr (.inl ⟨hn, h.symm⟩)
    · rw [identifier_of_not_mem hn, identifier_of_mem hm] at h
      exact .inr (.inr ⟨hm, h⟩)
    · rw [identifier_of_not_mem hn, identifier_of_not_mem hm] at h
      exact .inl h
  · rintro (rfl | ⟨hn, rfl⟩ | ⟨hm, rfl⟩)
    · rfl
    · rw [identifier_of_mem hn, identifier_of_not_mem (reserved_append n hn)]
    · rw [identifier_of_mem hm, identifier_of_not_mem (reserved_append m hm)]

/-- How many of the names are written like the given one. -/
def occurrences (names : List String) (n : String) : Nat :=
  (names.map identifier).count (identifier n)

theorem identifier_ne_main (n : String) : identifier n ≠ "main" := by
  by_cases hn : n ∈ reserved
  · have hall : ∀ w ∈ reserved, w ++ "_" ≠ "main" := by decide +kernel
    rw [identifier_of_mem hn]
    exact hall n hn
  · rw [identifier_of_not_mem hn]
    rintro rfl
    exact hn (by decide)

/-- Whether some of the names is a reserved word and another one is that word with an underscore. -/
def clashes (names : List String) : Bool :=
  names.any fun w => reserved.contains w && names.contains (w ++ "_")

theorem clashes_eq_false {names : List String} :
    clashes names = false ↔ ∀ w ∈ names, w ∈ reserved → w ++ "_" ∉ names := by
  simp [clashes]

theorem nodup_map_identifier {names : List String} (h : names.Nodup) :
    (names.map identifier).Nodup ↔ clashes names = false := by
  rw [nodup_map_iff_inj_on h, clashes_eq_false]
  constructor
  · intro hinj w hw hr hmem
    have heq : w = w ++ "_" := hinj w hw _ hmem (identifier_eq_iff.mpr (.inr (.inl ⟨hr, rfl⟩)))
    exact reserved_append w hr (heq ▸ hr)
  · intro hclear n hn m hm heq
    rcases identifier_eq_iff.mp heq with h | ⟨hr, rfl⟩ | ⟨hr, rfl⟩
    · exact h
    · exact (hclear n hn hr hm).elim
    · exact (hclear m hm hr hn).elim

/-- No other name is written like this one, which is written as it is. -/
structure Settled (n : String) : Prop where
  unreserved : n ∉ reserved
  unlike : ∀ w ∈ reserved, n ≠ w ++ "_"

namespace Settled

variable {n : String}

theorem identifier_eq (h : Settled n) : identifier n = n := identifier_of_not_mem h.unreserved

theorem eq_of_identifier (h : Settled n) {m : String} (hm : identifier m = n) : m = n := by
  rw [← h.identifier_eq] at hm
  rcases identifier_eq_iff.mp hm with hm | ⟨hr, hn⟩ | ⟨hr, _⟩
  · exact hm
  · exact (h.unlike m hr hn).elim
  · exact (h.unreserved hr).elim

theorem of_digit {c : Char} (hc : c ∈ n.toList) (hd : c.isDigit = true) : Settled n := by
  have hwords : ∀ w ∈ reserved, ∀ c ∈ (w ++ "_").toList, c.isDigit = false := by
    have hall : (reserved.all fun w => (w ++ "_").toList.all fun c => !c.isDigit) = true := by
      decide +kernel
    intro w hw c hc
    have hchars := all_eq_true.mp hall w hw
    exact Bool.not_eq_true' _ ▸ all_eq_true.mp hchars c hc
  constructor
  · intro hr
    have hword : c ∈ (n ++ "_").toList := by
      rw [String.toList_append]
      exact mem_append_left _ hc
    rw [hwords n hr c hword] at hd
    cases hd
  · rintro w hr rfl
    rw [hwords w hr c hc] at hd
    cases hd

theorem of_ret {rest : List Char} (h : n.toList = "ret_".toList ++ rest) : Settled n := by
  have hwords : ∀ w ∈ reserved, (w ++ "_").toList.take 4 ≠ "ret_".toList ∧
      w.toList.take 4 ≠ "ret_".toList := by decide +kernel
  have htake : n.toList.take 4 = "ret_".toList := by
    rw [h]
    rfl
  constructor
  · intro hr
    exact (hwords n hr).2 htake
  · rintro w hr rfl
    exact (hwords w hr).1 htake

end Settled

theorem count_settled {new : List String} (hnew : ∀ m ∈ new, Settled m) (hn : n ∉ new) :
    (new.map identifier).count (identifier n) = 0 := by
  apply count_eq_zero_of_not_mem
  intro hmem
  obtain ⟨m, hm, heq⟩ := mem_map.mp hmem
  rw [(hnew m hm).identifier_eq] at heq
  exact hn ((hnew m hm).eq_of_identifier heq.symm ▸ hm)

end MiniPascal.C

import MiniPascal.Proofs.Rules

/-!
# Every text has a tree with nearest `else`s

The rules leave open which of two conditions an `else` belongs to. That never decides whether tokens
are a text.
-/

namespace MiniPascal

open List

variable {next : Position} {ts : List Token} {n : Nat} {s : Statement}

theorem nearest_of_mem_kept (h : s.ElsesNearest) : ∀ x ∈ kept ts s, x.ElsesNearest := by
  unfold kept
  split
  · exact forall_mem_nil _
  · exact forall_mem_singleton.mpr h

/-- An `else` after an open statement can go to the last condition within it. -/
theorem exists_attached {us vs : List Token} {v : Token} {s' : Statement} (hn : us.length < n)
    (hs : StatementText us v.position s) (hopen : s.isOpen = true) (hnear : s.ElsesNearest)
    (hv : v.kind = .keyword .elseKw) (hs' : StatementText vs next s') (hnear' : s'.ElsesNearest) :
    ∃ r, StatementText (us ++ v :: vs) next r ∧ r.ElsesNearest := by
  induction n generalizing us s with
  | zero => exact absurd hn (Nat.not_lt_zero _)
  | succ n ih =>
    cases hs with
    | empty | assign | assignElement | call | callWith | compound | exit => cases hopen
    | @ifThen t ts u us _ c s ht hc hu hs =>
      cases hnear with
      | ifThen hnear =>
      rw [length_cons, length_append, length_cons] at hn
      rw [cons_append, append_assoc, cons_append]
      by_cases hinner : s.isOpen = true
      · obtain ⟨r, hr, hnear⟩ := ih (by omega) hs hinner hnear
        exact ⟨_, .ifThen ht hc hu hr, .ifThen hnear⟩
      · rw [Bool.not_eq_true] at hinner
        exact ⟨_, .ifThenElse ht hc hu hs hv hs', .ifThenElse hnear hinner hnear'⟩
    | @ifThenElse t ts u us w ws _ c s s₁ ht hc hu hs hw hs₁ =>
      cases hnear with
      | ifThenElse hnear hclosed hnear₁ =>
      simp only [length_cons, length_append] at hn
      obtain ⟨r, hr, hnear₁⟩ := ih (by omega) hs₁ hopen hnear₁
      rw [cons_append, append_assoc, cons_append, append_assoc,
        cons_append]
      exact ⟨_, .ifThenElse ht hc hu hs hw hr, .ifThenElse hnear hclosed hnear₁⟩
    | @count t x a ts d us o ws _ name first last direction s ht hx ha hfirst hd hlast ho hs =>
      cases hnear with
      | count hnear =>
      simp only [length_cons, length_append] at hn
      obtain ⟨r, hr, hnear⟩ := ih (by omega) hs hopen hnear
      rw [cons_append, cons_append, cons_append, append_assoc,
        cons_append, append_assoc, cons_append]
      exact ⟨_, .count ht hx ha hfirst hd hlast ho hr, .count hnear⟩
    | @loop t ts u us _ c s ht hc hu hs =>
      cases hnear with
      | loop hnear =>
      rw [length_cons, length_append, length_cons] at hn
      obtain ⟨r, hr, hnear⟩ := ih (by omega) hs hopen hnear
      rw [cons_append, append_assoc, cons_append]
      exact ⟨_, .loop ht hc hu hr, .loop hnear⟩

theorem exists_nearest_sequence (h : ∀ {ts next s}, ts.length < n → StatementText ts next s →
      ∃ r, StatementText ts next r ∧ r.ElsesNearest)
    {ss : List Statement} (hn : ts.length < n) (hss : SequenceText StatementText ts next ss) :
    ∃ rs, SequenceText StatementText ts next rs ∧ ∀ r ∈ rs, r.ElsesNearest := by
  induction hss with
  | one hs =>
    obtain ⟨r, hr, hnear⟩ := h hn hs
    exact ⟨_, .one hr, nearest_of_mem_kept hnear⟩
  | more hs ht _ ih =>
    rw [length_append, length_cons] at hn
    obtain ⟨r, hr, hnear⟩ := h (by omega) hs
    obtain ⟨rs, hrs, hnears⟩ := ih (by omega)
    exact ⟨_, .more hr ht hrs, forall_mem_append.mpr ⟨nearest_of_mem_kept hnear, hnears⟩⟩

theorem exists_nearest_statement (hn : ts.length < n) (hs : StatementText ts next s) :
    ∃ r, StatementText ts next r ∧ r.ElsesNearest := by
  induction n generalizing ts next s with
  | zero => exact absurd hn (Nat.not_lt_zero _)
  | succ n ih =>
    cases hs with
    | empty => exact ⟨_, .empty, .compound (forall_mem_nil _)⟩
    | assign ht hu he => exact ⟨_, .assign ht hu he, .assign⟩
    | assignElement ht hes hu he => exact ⟨_, .assignElement ht hes hu he, .assign⟩
    | call ht => exact ⟨_, .call ht, .call⟩
    | callWith ht hes => exact ⟨_, .callWith ht hes, .call⟩
    | exit ht => exact ⟨_, .exit ht, .exit⟩
    | compound ht hss hu =>
      rw [length_cons, length_append] at hn
      obtain ⟨rs, hrs, hnear⟩ := exists_nearest_sequence ih (by omega) hss
      exact ⟨_, .compound ht hrs hu, .compound hnear⟩
    | ifThen ht hc hu hs =>
      rw [length_cons, length_append, length_cons] at hn
      obtain ⟨r, hr, hnear⟩ := ih (by omega) hs
      exact ⟨_, .ifThen ht hc hu hr, .ifThen hnear⟩
    | ifThenElse ht hc hu hs hv hs' =>
      simp only [length_cons, length_append] at hn
      obtain ⟨r, hr, hnear⟩ := ih (by omega) hs
      obtain ⟨r', hr', hnear'⟩ := ih (by omega) hs'
      by_cases hopen : r.isOpen = true
      · obtain ⟨q, hq, hnear⟩ := exists_attached (Nat.lt_succ_self _) hr hopen hnear hv hr' hnear'
        exact ⟨_, .ifThen ht hc hu hq, .ifThen hnear⟩
      · rw [Bool.not_eq_true] at hopen
        exact ⟨_, .ifThenElse ht hc hu hr hv hr', .ifThenElse hnear hopen hnear'⟩
    | count ht hx ha hfirst hd hlast ho hs =>
      simp only [length_cons, length_append] at hn
      obtain ⟨r, hr, hnear⟩ := ih (by omega) hs
      exact ⟨_, .count ht hx ha hfirst hd hlast ho hr, .count hnear⟩
    | loop ht hc hu hs =>
      rw [length_cons, length_append, length_cons] at hn
      obtain ⟨r, hr, hnear⟩ := ih (by omega) hs
      exact ⟨_, .loop ht hc hu hr, .loop hnear⟩

theorem exists_nearest_block {parts : List Statement} {p : Position} (h : BlockText ts parts p) :
    ∃ rs, BlockText ts rs p ∧ ∀ r ∈ rs, r.ElsesNearest := by
  cases h with
  | intro ht hss hu =>
    obtain ⟨rs, hrs, hnear⟩ :=
      exists_nearest_sequence exists_nearest_statement (Nat.lt_succ_self _) hss
    exact ⟨rs, .intro ht hrs hu, hnear⟩

theorem exists_nearest_subprograms {subprograms : List Subprogram}
    (h : Repeated SubprogramText ts subprograms) :
    ∃ rs, Repeated SubprogramText ts rs ∧ ∀ r ∈ rs, r.body.ElsesNearest := by
  induction h with
  | nil => exact ⟨[], .nil, forall_mem_nil _⟩
  | cons hs _ ih =>
    obtain ⟨hheading, hbody, ht⟩ := hs
    obtain ⟨hconsts, hvars, hblock⟩ := hbody
    obtain ⟨parts, hparts, hnear⟩ := exists_nearest_block hblock
    obtain ⟨rs, hrs, hnears⟩ := ih
    exact ⟨_, .cons (.intro hheading (.intro hconsts hvars hparts) ht) hrs,
      forall_mem_cons.mpr ⟨hnear, hnears⟩⟩

theorem exists_nearest_program {p : Program} (h : ProgramText ts p) :
    ∃ q, ProgramText ts q ∧ q.ElsesNearest := by
  obtain ⟨hhead, hconsts, hvars, hsubprograms, hblock, ht⟩ := h
  obtain ⟨rs, hrs, hnears⟩ := exists_nearest_subprograms hsubprograms
  obtain ⟨parts, hparts, hnear⟩ := exists_nearest_block hblock
  exact ⟨_, .intro hhead hconsts hvars hrs hparts ht, hnears, hnear⟩

end MiniPascal

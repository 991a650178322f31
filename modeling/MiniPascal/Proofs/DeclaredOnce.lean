import MiniPascal.Proofs.Scopes

/-!
# Identifiers that are declared once

C allows one declaration of an identifier in a scope. But a variable and a routine with parameters
may share a name, and a name such as `int_` is written like the reserved word `int`.
-/

namespace MiniPascal

open Analysis List

/-- Whether some scope would declare an identifier twice. -/
def Program.collides (p : Program) : Bool :=
  p.body.dataNames.any p.plainNames.contains || C.clashes p.outerNames ||
    p.subprograms.any fun s => C.clashes s.dataNames

namespace C

def Distinct (scope : List Declaration) : Prop := (scope.map Declaration.identifier).Nodup

instance (scope : List Declaration) : Decidable (Distinct scope) :=
  inferInstanceAs (Decidable (List.Nodup _))

structure DeclaresOnce (q : Program) : Prop where
  file : Distinct q.scope
  routines : ∀ r ∈ q.routines, Distinct r.scope
  main : Distinct q.main.declarations.scope

instance (q : Program) : Decidable (DeclaresOnce q) :=
  decidable_of_iff (Distinct q.scope ∧ (∀ r ∈ q.routines, Distinct r.scope) ∧
    Distinct q.main.declarations.scope) ⟨fun h => ⟨h.1, h.2.1, h.2.2⟩, fun h => ⟨h.1, h.2, h.3⟩⟩

theorem nodup_identifiers_iff {names : List String} :
    (names.map identifier).Nodup ↔ names.Nodup ∧ clashes names = false := by
  constructor
  · intro hwritten
    have hnames := hwritten.of_map identifier
    exact ⟨hnames, (nodup_map_identifier hnames).mp hwritten⟩
  · rintro ⟨hnames, hclear⟩
    exact (nodup_map_identifier hnames).mpr hclear

theorem nodup_identifiers_append {names new : List String} (hnodup : new.Nodup)
    (hnew : ∀ n ∈ new, n ∉ names ∧ Settled n) :
    (names.map identifier ++ new).Nodup ↔ (names.map identifier).Nodup := by
  rw [nodup_append']
  refine ⟨fun h => h.1, fun h => ⟨h, hnodup, ?_⟩⟩
  intro n hn hmem
  obtain ⟨m, hm, rfl⟩ := mem_map.mp hn
  rw [← (hnew _ hmem).2.eq_of_identifier rfl] at hmem
  exact (hnew m hmem).1 hm

section

variable {p : MiniPascal.Program} {folding : Bool} {q : Program}

theorem Assembled.distinct_file (accepted : Accepted p) (h : Assembled p folding q)
    (hne : q.routines ≠ []) :
    Distinct q.scope ↔ p.outerNames.Nodup ∧ clashes p.outerNames = false := by
  obtain ⟨new, hperm, hroutines, hnew⟩ := h.file_perm accepted hne
  have hsame : new.map identifier = new := by
    rw [map_congr_left fun n hn => (hnew n hn).2.identifier_eq, map_id']
  have hmain : ((p.outerNames ++ new).map identifier ++ ["main"]).Nodup ↔
      ((p.outerNames ++ new).map identifier).Nodup := by
    rw [nodup_append']
    refine ⟨fun h => h.1, fun h => ⟨h, nodup_singleton _, ?_⟩⟩
    intro n hn hmem
    obtain ⟨m, _, hm⟩ := mem_map.mp hn
    exact identifier_ne_main m (hm.trans (mem_singleton.mp hmem))
  have hnodup := hroutines.nodup_iff.mp (h.named accepted).2.1
  rw [Distinct, hperm.nodup_iff, hmain, map_append, hsame, nodup_identifiers_append,
    nodup_identifiers_iff]
  · exact (nodup_append'.mp hnodup).2.1
  · exact fun n hn => ⟨fun hmem => (hnew n hn).1 (outerNames_subset hmem), (hnew n hn).2⟩

theorem Assembled.distinct_routine (accepted : Accepted p) (h : Assembled p folding q)
    {before after : List Subprogram} {s : Subprogram} (hs : p.subprograms = before ++ s :: after)
    {r : Routine} (hr : RoutineOf (Env.inside p folding before s) s r) :
    Distinct r.scope ↔ clashes s.dataNames = false := by
  rw [Distinct, hr.scope_perm.nodup_iff, nodup_identifiers_append, nodup_map_identifier]
  · exact dataNames_nodup_subprogram accepted hs
  · cases r.result with
    | none => exact nodup_nil
    | some v => exact nodup_singleton _
  · intro n hn
    obtain ⟨v, hv, rfl⟩ := mem_map.mp hn
    have hlookup := hr.result_lookup (Option.mem_toList.mp hv)
    obtain ⟨hsettled, hnew, _⟩ := (h.named accepted).2.2 _ _ hlookup
    exact ⟨fun hmem => hnew (dataNames_subset hs hmem), hsettled⟩

theorem Assembled.declaresOnce (accepted : Accepted p) (h : Assembled p folding q) :
    DeclaresOnce q ↔ p.outerNames.Nodup ∧ clashes p.outerNames = false ∧
      ∀ s ∈ p.subprograms, clashes s.dataNames = false := by
  by_cases hne : q.routines = []
  · have hnone : p.subprograms = [] := forall₂_nil_right_iff.mp (hne ▸ h.routines)
    have hfile : q.scope = [.main] := by
      rw [Program.scope, h.globals hne, hne]
      rfl
    have hmain : Distinct q.main.declarations.scope ↔
        p.outerNames.Nodup ∧ clashes p.outerNames = false :=
      (h.main_perm hne).nodup_iff.trans nodup_identifiers_iff
    constructor
    · intro honce
      exact ⟨(hmain.mp honce.main).1, (hmain.mp honce.main).2, by simp [hnone]⟩
    · rintro ⟨hnodup, hclear, _⟩
      exact ⟨hfile ▸ nodup_singleton _, by simp [hne], hmain.mpr ⟨hnodup, hclear⟩⟩
  · have hfile := h.distinct_file accepted hne
    have hmain : q.main.declarations.scope = [] := by
      rw [h.locals hne]
      rfl
    constructor
    · intro honce
      refine ⟨(hfile.mp honce.file).1, (hfile.mp honce.file).2, fun s hs => ?_⟩
      obtain ⟨r, hr, _, _, hs, hof⟩ := exists_left_of_mem h.routines.flip hs
      exact (h.distinct_routine accepted hs hof).mp (honce.routines r hr)
    · rintro ⟨hnodup, hclear, hsubs⟩
      refine ⟨hfile.mpr ⟨hnodup, hclear⟩, fun r hr => ?_, hmain ▸ nodup_nil⟩
      obtain ⟨s, hmem, _, _, hs, hof⟩ := exists_left_of_mem h.routines hr
      exact (h.distinct_routine accepted hs hof).mpr (hsubs s hmem)

theorem plainNames_nodup (p : MiniPascal.Program) : p.plainNames.Nodup := by
  rw [nodup_iff_count_le_one]
  intro name
  by_cases hname : (Names.headed p).count name ≤ 1
  · exact Nat.le_trans (filter_sublist.count_le name) hname
  · have hnone : name ∉ p.plainNames := by
      intro hmem
      exact hname (of_decide_eq_true (mem_filter.mp hmem).2)
    rw [count_eq_zero_of_not_mem hnone]
    omega

end

/-- The identifiers of a lowered source are declared once in each scope exactly if no variable or
constant of the program has the name of a single subprogram, and if no scope declares a reserved
word together with that word and an underscore. -/
theorem declares_once_iff {source : String} {p : MiniPascal.Program}
    (hparse : parse (scan source) = .ok (p, [])) (hclean : (analyze p).isClean = true)
    {level : Nat} {q : Program} (hlower : lower p (analyze p).table (foldsAt level) = .ok q) :
    DeclaresOnce q ↔ p.collides = false := by
  obtain ⟨accepted, assembled⟩ := assembled_of_source hparse hclean hlower
  have hdata := dataNames_nodup (List.isEmpty_iff.mp hclean)
  have houter : p.outerNames.Nodup ↔ ∀ name ∈ p.body.dataNames, name ∉ p.plainNames := by
    rw [MiniPascal.Program.outerNames, List.nodup_append']
    exact ⟨fun h name hd hp => h.2.2 hd hp,
      fun h => ⟨hdata, plainNames_nodup p, fun n hd hp => h n hd hp⟩⟩
  rw [assembled.declaresOnce accepted, houter]
  simp [MiniPascal.Program.collides, and_assoc]

/-- Reserved words as names, routines of one name, a function beside a variable like the one for its
result, and variables that are called like a routine elsewhere. -/
def crowded : String :=
  "program p; const while1 = 2; var int, g, ret_f: integer; a: array[1..2] of real;
  procedure g(x: integer); var g, double: integer; begin g := x end;
  procedure g(x: real); begin end;
  function f(int: integer; var a: char): real; var g: integer; begin f := int end;
  begin g(int); g(1.5) end."

set_option maxRecDepth 2000 in
theorem crowded_declares_once : ∃ (p : MiniPascal.Program) (q : Program),
    parse (scan crowded) = .ok (p, []) ∧ (analyze p).isClean = true ∧
      lower p (analyze p).table (foldsAt 0) = .ok q ∧ q.routines.length = 3 ∧ DeclaresOnce q := by
  obtain ⟨p, q, hp, hclean, hlower, hcollides, hroutines⟩ := exists_lowered crowded (foldsAt 0)
    (fun p q => p.collides = false ∧ q.routines.length = 3) rfl (by decide +kernel)
  exact ⟨p, q, hp, hclean, hlower, hroutines, (declares_once_iff hp hclean hlower).mpr hcollides⟩

/-- Two variables of the program that are written alike. -/
def alikeVariables : String := "program p; var int, int_: integer; begin int := 1; int_ := 2 end."

/-- An accepted source whose `main` declares one identifier twice. -/
theorem alike_variables_declared_twice : ∃ (p : MiniPascal.Program) (q : Program),
    parse (scan alikeVariables) = .ok (p, []) ∧ (analyze p).isClean = true ∧
      lower p (analyze p).table (foldsAt 0) = .ok q ∧
      q.main.declarations.scope.map Declaration.identifier = ["int_", "int_"] ∧
        ¬ DeclaresOnce q := by
  obtain ⟨p, q, hp, hclean, hlower, hmain⟩ := exists_lowered alikeVariables (foldsAt 0)
    (fun _ q => q.main.declarations.scope.map Declaration.identifier = ["int_", "int_"])
    rfl (by decide +kernel)
  refine ⟨p, q, hp, hclean, hlower, hmain, fun honce => ?_⟩
  have hnodup := honce.main
  rw [Distinct, hmain] at hnodup
  exact absurd hnodup (by decide)

end C

end MiniPascal

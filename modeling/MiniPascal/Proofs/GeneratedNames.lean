import MiniPascal.C.Names
import MiniPascal.Proofs.Identifiers
import MiniPascal.Proofs.Lists

/-!
# Generated names

A generated name is lengthened until it differs from all names that are taken.
-/

namespace MiniPascal.C

open List

def lengthened (name : String) (k : Nat) : String :=
  name ++ String.ofList (List.replicate k '_')

theorem lengthened_zero (name : String) : lengthened name 0 = name := String.append_empty

theorem lengthened_append (name : String) (k : Nat) :
    lengthened (name ++ "_") k = lengthened name (k + 1) := by
  apply String.toList_inj.mp
  simp [lengthened, String.toList_append, replicate_succ]

theorem toList_lengthened (name : String) (k : Nat) :
    (lengthened name k).toList = name.toList ++ List.replicate k '_' := by
  rw [lengthened, String.toList_append, String.toList_ofList]

theorem lengthened_injective (name : String) : Function.Injective (lengthened name) := by
  intro j k h
  have hlength := congrArg (fun n => n.toList.length) h
  simpa [toList_lengthened] using hlength

variable (taken : List String)

/-- All shorter candidates are taken, and if the last one was not reached, the result is free. -/
theorem freshWithin_eq (n : Nat) (name : String) :
    ∃ k, freshWithin taken n name = lengthened name k ∧ (∀ j < k, lengthened name j ∈ taken) ∧
      (k = n ∨ lengthened name k ∉ taken) := by
  induction n generalizing name with
  | zero => exact ⟨0, (lengthened_zero name).symm, by omega, .inl rfl⟩
  | succ n ih =>
    rw [freshWithin]
    by_cases hname : name ∈ taken
    · rw [if_pos (contains_iff_mem.mpr hname)]
      obtain ⟨k, heq, hshorter, hend⟩ := ih (name ++ "_")
      simp only [lengthened_append] at heq hshorter hend
      refine ⟨k + 1, heq, ?_, hend.imp_left (congrArg (· + 1))⟩
      intro j hj
      cases j with
      | zero => rwa [lengthened_zero]
      | succ j => exact hshorter j (by omega)
    · rw [if_neg fun h => hname (contains_iff_mem.mp h)]
      refine ⟨0, (lengthened_zero name).symm, by omega, .inr ?_⟩
      rwa [lengthened_zero]

theorem fresh_eq (name : String) : ∃ k, fresh taken name = lengthened name k := by
  obtain ⟨k, heq, _⟩ := freshWithin_eq taken taken.length name
  exact ⟨k, heq⟩

theorem fresh_not_mem (name : String) : fresh taken name ∉ taken := by
  obtain ⟨k, heq, hshorter, hend⟩ := freshWithin_eq taken taken.length name
  rw [fresh, heq]
  rcases hend with rfl | hfree
  · -- Of one more candidates than there are taken names not all can be taken.
    intro hlast
    have hnodup : ((List.range (taken.length + 1)).map (lengthened name)).Nodup :=
      nodup_range.map (lengthened_injective name)
    have hsubset : (List.range (taken.length + 1)).map (lengthened name) ⊆ taken := by
      intro candidate hmem
      obtain ⟨j, hj, rfl⟩ := mem_map.mp hmem
      rcases Nat.lt_succ_iff_lt_or_eq.mp (mem_range.mp hj) with hj | rfl
      · exact hshorter j hj
      · exact hlast
    have hlength := hnodup.length_le_of_subset hsubset
    rw [length_map, length_range] at hlength
    omega
  · exact hfree

theorem settled_fresh_numbered (name : String) (k : Nat) :
    Settled (fresh taken (name ++ "_" ++ toString k)) := by
  obtain ⟨j, hj⟩ := fresh_eq taken (name ++ "_" ++ toString k)
  obtain ⟨c, hc⟩ := exists_mem_of_ne_nil _ (Nat.toDigits_ne_nil (n := k) (b := 10))
  refine Settled.of_digit (c := c) ?_ (Nat.isDigit_of_mem_toDigits (by omega) (by omega) hc)
  rw [← Nat.toList_repr] at hc
  rw [hj, toList_lengthened, String.toList_append]
  exact mem_append_left _ (mem_append_right _ hc)

theorem settled_fresh_ret (name : String) : Settled (fresh taken ("ret_" ++ name)) := by
  obtain ⟨j, hj⟩ := fresh_eq taken ("ret_" ++ name)
  have hstart : (lengthened ("ret_" ++ name) j).toList =
      "ret_".toList ++ (name.toList ++ List.replicate j '_') := by
    rw [toList_lengthened, String.toList_append, append_assoc]
  rw [hj]
  exact Settled.of_ret hstart

theorem mem_of_lookup {β : Type} {map : List (Position × β)} {place : Position} {x : β}
    (h : map.lookup place = some x) : (place, x) ∈ map := by
  obtain ⟨before, after, heq, _⟩ := lookup_eq_some_iff.mp h
  exact heq ▸ mem_append_right _ mem_cons_self

/-- What a routine is called, when some names are taken. -/
inductive RoutineNamed (all taken : List String) (h : Heading) : String → Prop where
  | plain (once : all.count h.name ≤ 1) : RoutineNamed all taken h h.name
  | numbered {name : String} (several : 1 < all.count h.name) (settled : Settled name)
      (new : name ∉ taken) : RoutineNamed all taken h name

theorem RoutineNamed.of_subset {all taken taken' : List String} {h : Heading} {name : String}
    (hsub : taken ⊆ taken') (hn : RoutineNamed all taken' h name) :
    RoutineNamed all taken h name := by
  cases hn with
  | plain once => exact .plain once
  | numbered several settled new => exact .numbered several settled fun hmem => new (hsub hmem)

namespace Naming

theorem routines_cons (all earlier : List String) (h : Heading) (hs : List Heading) (n : Naming) :
    ∃ name n', routines all earlier (h :: hs) n = routines all (h.name :: earlier) hs n' ∧
      n'.names = (h.position, name) :: n.names ∧ RoutineNamed all n.taken h name ∧
      ((all.count h.name ≤ 1 ∧ name = h.name ∧ n'.taken = n.taken) ∨
        (1 < all.count h.name ∧ name ∉ n.taken ∧ n'.taken = name :: n.taken)) := by
  rw [routines]
  by_cases hcount : 1 < all.count h.name
  · have hnew := fresh_not_mem n.taken (h.name ++ "_" ++ toString (earlier.count h.name + 1))
    refine ⟨_, n.generate h _, by rw [if_pos hcount], rfl, ?_, .inr ⟨hcount, hnew, rfl⟩⟩
    exact .numbered hcount (settled_fresh_numbered _ _ _) hnew
  · have honce := Nat.not_lt.mp hcount
    exact ⟨h.name, { n with names := (h.position, h.name) :: n.names }, by rw [if_neg hcount], rfl,
      .plain honce, .inl ⟨honce, rfl, rfl⟩⟩

variable {hs : List Heading} {n : Naming}

theorem lookup_routines {all earlier : List String} {q : Position}
    (hq : q ∉ hs.map Heading.position) :
    (routines all earlier hs n).names.lookup q = n.names.lookup q := by
  induction hs generalizing earlier n with
  | nil => rfl
  | cons h hs ih =>
    obtain ⟨hne, hq⟩ := not_or.mp (mem_cons.not.mp hq)
    obtain ⟨name, n', heq, hnames, _⟩ := routines_cons all earlier h hs n
    rw [heq, ih hq, hnames, lookup_cons, beq_eq_false_iff_ne.mpr hne]

theorem routines_named {all : List String} (earlier : List String)
    (hall : (hs.map Heading.name).Sublist all) (hdeclared : hs.map Heading.name ⊆ n.taken)
    (hplaces : (hs.map Heading.position).Nodup) :
    n.taken ⊆ (routines all earlier hs n).taken ∧ ∃ names,
      Forall₂ (fun h name => (routines all earlier hs n).names.lookup h.position = some name ∧
        RoutineNamed all n.taken h name) hs names ∧
      names.Nodup ∧ names ⊆ (routines all earlier hs n).taken := by
  induction hs generalizing earlier n with
  | nil => exact ⟨List.Subset.refl _, [], .nil, nodup_nil, nil_subset _⟩
  | cons h hs ih =>
    obtain ⟨hplace, hplaces⟩ := nodup_cons.mp hplaces
    obtain ⟨hname, hdeclared⟩ := cons_subset.mp hdeclared
    obtain ⟨name, n', heq, hnames, hnamed, htaken⟩ := routines_cons all earlier h hs n
    have hsub : n.taken ⊆ n'.taken := by
      rcases htaken with ⟨_, _, htaken⟩ | ⟨_, _, htaken⟩
      · rw [htaken]
        exact List.Subset.refl _
      · rw [htaken]
        exact subset_cons_self _ _
    obtain ⟨hgrows, names, hrest, hnodup, htakenrest⟩ := ih (h.name :: earlier)
      ((sublist_cons_self _ _).trans hall) (fun m hm => hsub (hdeclared hm)) hplaces
    have htakenname : name ∈ n'.taken := by
      rcases htaken with ⟨_, rfl, _⟩ | ⟨_, _, htaken⟩
      · exact hsub hname
      · exact htaken ▸ mem_cons_self
    rw [heq]
    refine ⟨fun m hm => hgrows (hsub hm), name :: names, .cons ⟨?_, hnamed⟩ ?_, ?_,
      cons_subset.mpr ⟨hgrows htakenname, htakenrest⟩⟩
    · rw [lookup_routines hplace, hnames]
      exact lookup_cons_self
    · exact hrest.imp fun _ _ hr => ⟨hr.1, hr.2.of_subset hsub⟩
    refine nodup_cons.mpr ⟨fun hmem => ?_, hnodup⟩
    -- A later routine of the same name as `h` would make two of one name, or was named anew.
    obtain ⟨h', hmem, _, hlater⟩ := exists_left_of_mem hrest hmem
    have hmemlater : h'.name ∈ hs.map Heading.name := mem_map_of_mem hmem
    cases hlater with
    | plain once =>
      rcases htaken with ⟨_, hsame, _⟩ | ⟨_, hnew, _⟩
      · have htwo := hall.count_le h'.name
        have hone : 0 < (hs.map Heading.name).count h'.name := count_pos_iff.mpr hmemlater
        rw [map_cons, ← hsame, count_cons_self] at htwo
        omega
      · exact hnew (hdeclared hmemlater)
    | numbered several settled new => exact new htakenname

theorem mem_results {entry : Position × String} (h : entry ∈ (results hs n).names) :
    entry ∈ n.names ∨ (entry.2 ∉ n.taken ∧ Settled entry.2) := by
  unfold results at h
  generalize hs.filter (fun h => h.returns.isSome) = functions at h
  induction functions generalizing n with
  | nil => exact .inl h
  | cons f fs ih =>
    rcases ih h with h | ⟨hnew, hsettled⟩
    · rcases mem_cons.mp h with rfl | h
      · exact .inr ⟨fresh_not_mem _ _, settled_fresh_ret _ _⟩
      · exact .inl h
    · exact .inr ⟨fun hmem => hnew (mem_cons_of_mem _ hmem), hsettled⟩

end Naming

namespace Names

variable {p : MiniPascal.Program} {declared : List String}

abbrev headed (p : MiniPascal.Program) : List String := p.subprograms.map fun s => s.heading.name

section

variable (hdeclared : headed p ⊆ declared)
  (hplaces : (p.subprograms.map fun s => s.heading.position).Nodup)
include hdeclared hplaces

theorem routines_of_headings : ∃ taken, declared ⊆ taken ∧ (Names.ofProgram p declared).results =
        (Naming.results (p.subprograms.map Subprogram.heading) ⟨[], taken⟩).names ∧
      ∃ names, Forall₂ (fun s name =>
        (Names.ofProgram p declared).routines.lookup s.heading.position = some name ∧
          RoutineNamed (headed p) declared s.heading name) p.subprograms names ∧
        names.Nodup ∧ names ⊆ taken := by
  have hheads : (p.subprograms.map Subprogram.heading).map Heading.name = headed p :=
    map_map
  have hpositions : ((p.subprograms.map Subprogram.heading).map Heading.position).Nodup := by
    rw [map_map]
    exact hplaces
  have hall : ((p.subprograms.map Subprogram.heading).map Heading.name).Sublist (headed p) :=
    hheads ▸ List.Sublist.refl _
  obtain ⟨hgrows, names, hnamed, hnodup, htaken⟩ := Naming.routines_named (n := ⟨[], declared⟩) []
    hall (hheads ▸ hdeclared) hpositions
  rw [forall₂_map_left_iff] at hnamed
  rw [Names.ofProgram, hheads]
  exact ⟨_, hgrows, rfl, names, hnamed, hnodup, htaken⟩

theorem names_ofProgram : ∃ names, Forall₂ (fun s name =>
      (Names.ofProgram p declared).routines.lookup s.heading.position = some name ∧
        RoutineNamed (headed p) declared s.heading name) p.subprograms names ∧ names.Nodup ∧
    ∀ place name, (Names.ofProgram p declared).results.lookup place = some name →
      Settled name ∧ name ∉ declared ∧ name ∉ names := by
  obtain ⟨taken, hgrows, hresults, names, hnamed, hnodup, htaken⟩ :=
    routines_of_headings hdeclared hplaces
  refine ⟨names, hnamed, hnodup, fun place name h => ?_⟩
  have hmem := mem_of_lookup h
  rw [hresults] at hmem
  rcases Naming.mem_results hmem with hmem | ⟨hnew, hsettled⟩
  · cases hmem
  · exact ⟨hsettled, fun hd => hnew (hgrows hd), fun hr => hnew (htaken hr)⟩

end

end Names

end MiniPascal.C

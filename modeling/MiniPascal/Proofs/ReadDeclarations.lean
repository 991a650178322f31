import MiniPascal.Proofs.ReadExpressions

/-!
# Declarations are read by their rules

A declaration is read without recovery, so these readers are as those of expressions. The bounds of
a dimension are checked while they are read.
-/

namespace MiniPascal

open List

theorem Integer.isSome_ofInt? {n : Int} :
    (ofInt? n).isSome ↔ Int64.minValue.toInt ≤ n ∧ n ≤ Int64.maxValue.toInt := by
  unfold ofInt?
  split
  · next h => exact ⟨fun _ => by omega, fun _ => rfl⟩
  · next h => exact ⟨nofun, fun hn => absurd ⟨by omega, by omega⟩ h⟩

theorem Period.isSome_size? {lower upper : Int64} (h : lower ≤ upper) :
    (size? ⟨lower, upper⟩).isSome ↔ upper.toInt - lower.toInt < Int64.maxValue.toInt := by
  have hle := Int64.le_iff_toInt_le.mp h
  have hone : (1 : Int64).toInt = 1 := rfl
  have hmin : Int64.minValue.toInt ≤ 0 := by decide
  unfold size?
  cases hsub : Integer.sub? upper lower with
  | none =>
    have hnone : ¬ (Integer.ofInt? (upper.toInt - lower.toInt)).isSome := by
      rw [show Integer.ofInt? _ = none from hsub]
      nofun
    rw [Integer.isSome_ofInt?] at hnone
    exact ⟨nofun, fun hn => absurd ⟨by omega, by omega⟩ hnone⟩
  | some d =>
    have hd := Integer.toInt_of_ofInt? hsub
    have hsize : (Integer.add? d 1).isSome ↔ _ := Integer.isSome_ofInt?
    exact hsize.trans ⟨fun hn => by omega, fun hn => ⟨by omega, by omega⟩⟩

namespace Parse

section Reads

theorem reads_scalarType : Reads scalarType fun us type => ∃ t, us = [t] ∧ t.kind = type.kind := by
  refine reads_kind fun t => ?_
  split
  case h_5 => exact Reads.expected _ t
  all_goals
    next ht =>
      exact readsAt_advance ht nofun fun _ => .pure ⟨t, rfl, ht⟩

theorem reads_names (what : String) : Reads (names what) NamesText := by
  have hname : ∀ what, Reads (Prod.fst <$> identifier what) NameText := by
    intro what
    exact reads_identifier fun t n hn => .pure (.intro hn)
  exact reads_separated nofun (hname what) (hname _)

theorem reads_bound : Reads bound BoundText := by
  refine reads_accept nofun (fun t ht => ?_) ?_
  · refine reads_expect nofun fun u hu hcarries => ?_
    obtain ⟨v, hv⟩ := Token.exists_integer hcarries hu
    rw [hv]
    exact .pure (.negative ht ⟨hu, hv⟩)
  · refine reads_expect nofun fun u hu hcarries => ?_
    obtain ⟨v, hv⟩ := Token.exists_integer hcarries hu
    rw [hv]
    exact .pure (.plain ⟨hu, hv⟩)

theorem reads_period : Reads period PeriodText := by
  refine fun t => readsAt_position (reads_bound.bind (fun us lower hlower => ?_) t)
  refine reads_expect nofun fun u hu _ => reads_bound.bind fun vs upper hupper => ?_
  split
  · exact .throw _
  next hle =>
  split
  · exact .throw _
  next hsize =>
  have hle : lower ≤ upper := Int64.not_lt.mp hle
  rw [Bool.not_eq_true, Option.isNone_eq_false_iff, Period.isSome_size? hle] at hsize
  refine .pure ?_
  rw [append_nil]
  exact .intro hlower hu hupper hle hsize

theorem reads_type : Reads type fun us a => TypeText us a.1 a.2 := by
  refine reads_accept nofun (fun t ht => ?_) ?_
  · have hperiods : Reads (separated (.mark .comma) period period) _ :=
      reads_separated nofun reads_period reads_period
    refine reads_expect nofun fun u hu _ => hperiods.bind fun us periods hus => ?_
    refine reads_expect nofun fun v hv _ => reads_expect nofun fun w hw _ => ?_
    refine reads_scalarType.map ?_
    rintro _ type ⟨x, rfl, hx⟩
    exact .array ht hu hus hv hw hx
  · refine reads_scalarType.map ?_
    rintro _ type ⟨t, rfl, ht⟩
    exact .scalar ht

theorem reads_constDecl : Reads constDecl ConstText := by
  refine reads_identifier fun t n hn => reads_expect nofun fun u hu _ => ?_
  refine reads_operand.bind fun us e he => reads_expect nofun fun v hv _ => ?_
  exact .pure (.intro hn hu he hv)

theorem starts_names {ts : List Token} {names : List String} (h : NamesText ts names) :
    Starts ts (· = .identifier) := by
  refine starts_separated ?_ h
  rintro _ n ⟨ht⟩
  exact ⟨_, [], rfl, ht.1⟩

theorem reads_varDecl : Reads varDecl VarText := by
  refine fun t => readsAt_position ((reads_names _ t).bind fun us names hnames hhead => ?_)
  obtain ⟨u, us, rfl, -⟩ := starts_names hnames
  cases hhead u us rfl
  refine reads_expect nofun fun v hv _ => reads_type.bind fun vs a ha => ?_
  exact reads_expect nofun fun w hw _ => .pure (.intro hnames hv ha hw)

theorem reads_paramGroup : Reads paramGroup ParamText := by
  intro t
  refine readsAt_position (readsAt_accept nofun (fun ht => ?_) fun _ => ?_)
  · refine (reads_names _).bind fun us names hnames => reads_expect nofun fun u hu _ => ?_
    refine reads_scalarType.map ?_
    rintro _ type ⟨v, rfl, hv⟩
    exact .byReference ht hnames hu hv
  · refine (reads_names _ t).bind fun us names hnames hhead => ?_
    obtain ⟨u, us, rfl, -⟩ := starts_names hnames
    cases hhead u us rfl
    refine reads_expect nofun fun v hv _ => reads_scalarType.map ?_
    rintro _ type ⟨w, rfl, hw⟩
    exact .byValue hnames hv hw

theorem reads_paramGroups : Reads paramGroups ParamsText := by
  have hgroups : Reads (separated (.mark .semicolon) paramGroup paramGroup) _ :=
    reads_separated nofun reads_paramGroup reads_paramGroup
  refine reads_accept nofun (fun t ht => reads_kind fun u => ?_) (.pure .none)
  split
  · rw [pure_bind]
    exact readsAt_expect nofun fun hu _ => .pure (.empty ht hu)
  · refine hgroups.bind (fun us groups hus => ?_) u
    exact reads_expect nofun fun v hv _ => .pure (.some ht hus hv)

theorem reads_heading : Reads heading HeadingText := by
  intro t
  refine readsAt_position (readsAt_kind ?_)
  split
  · next ht =>
    rw [pure_bind]
    refine readsAt_advance ht nofun fun _ => reads_identifier fun u n hn => ?_
    refine reads_paramGroups.bind fun us groups hus => ?_
    unfold returnType
    rw [if_pos rfl, bind_assoc]
    refine reads_expect nofun fun v hv _ => ?_
    rw [bind_assoc]
    refine reads_scalarType.bind ?_
    rintro _ type ⟨w, rfl, hw⟩
    exact reads_expect nofun fun x hx _ => .pure (.function ht hn hus hv hw hx)
  · next ht =>
    rw [pure_bind]
    refine readsAt_advance ht nofun fun _ => reads_identifier fun u n hn => ?_
    refine reads_paramGroups.bind fun us groups hus => ?_
    unfold returnType
    rw [if_neg Bool.false_ne_true, pure_bind]
    exact reads_expect nofun fun v hv _ => .pure (.procedure ht hn hus hv)
  · exact (Reads.expected _).bind (fun _ _ => False.elim) t

theorem reads_programHead : Reads programHead fun us a => ProgramHeadText us a.1 a.2.1 a.2.2 := by
  intro t
  refine readsAt_position (readsAt_expect nofun fun ht _ => reads_identifier fun u n hn => ?_)
  refine reads_accept nofun (fun v hv => ?_) ?_
  · refine (reads_names _).bind fun us names hnames => reads_expect nofun fun w hw _ => ?_
    exact reads_expect nofun fun x hx _ => .pure (.listed ht hn hv hnames hw hx)
  · dsimp only
    rw [if_neg Bool.false_ne_true, pure_bind]
    exact reads_expect nofun fun v hv _ => .pure (.plain ht hn hv)

end Reads

section Takes

variable {t : Token} {ts : List Token} {last : Token} (n : Nat)

theorem scalarType_cons {type : ScalarType} (h : t.kind = type.kind) :
    scalarType ⟨t :: ts, last⟩ = .ok type ⟨ts, last⟩ := by
  unfold scalarType
  rw [kind_bind, kind_cons, h]
  cases type <;> rfl

theorem takes_names (what : String) :
    Takes n (names what) NamesText fun _ k => k ≠ .mark .comma := by
  have hname : ∀ what, Takes n (Prod.fst <$> identifier what) NameText fun _ _ => True := by
    rintro what _ name rest last - ⟨ht⟩ -
    rw [map_eq_pure_bind, singleton_append, bind_of_ok (identifier_cons ht what)]
    rfl
  intro ts names rest last hn hnames hk
  exact takes_separated (hname what) (hname _) (fun _ => trivial) rest last hn hnames
    ⟨fun _ => trivial, hk⟩

theorem takes_bound : Takes n bound BoundText fun _ _ => True := by
  intro ts v rest last _ hv _
  unfold bound
  cases hv with
  | @plain t _ ht =>
    have hne : (Input.mk (t :: rest) last).kind ≠ .mark .minus := by
      rw [kind_cons, ht.1]
      nofun
    rw [singleton_append, bind_of_ok (accept_of_ne hne), bind_of_ok (expect_cons ht.1 _), ht.2]
    rfl
  | negative ht hu =>
    rw [cons_append, bind_of_ok (accept_cons ht), singleton_append,
      bind_of_ok (expect_cons hu.1 _), hu.2]
    rfl

theorem takes_period : Takes n period PeriodText fun _ _ => True := by
  rintro _ p rest last - ⟨hlower, hu, hupper, hle, hsize⟩ -
  rw [← Period.isSome_size? hle, ← Option.isNone_eq_false_iff] at hsize
  unfold period
  rw [position_bind, append_assoc,
    bind_of_ok (takes_bound _ _ last (Nat.le_refl _) hlower trivial), cons_append,
    bind_of_ok (expect_cons hu _),
    bind_of_ok (takes_bound _ rest last (Nat.le_refl _) hupper trivial),
    if_neg (Int64.not_lt.mpr hle), hsize]
  rfl

theorem takes_type : Takes n type (fun us a => TypeText us a.1 a.2) fun _ _ => True := by
  rintro ts ⟨type, periods⟩ rest last - h -
  unfold Parse.type
  cases h with
  | @scalar t _ ht =>
    have hne : (Input.mk (t :: rest) last).kind ≠ .keyword .arrayKw := by
      rw [kind_cons, ht]
      cases type <;> nofun
    rw [singleton_append, bind_of_ok (accept_of_ne hne), if_neg Bool.false_ne_true,
      bind_of_ok (scalarType_cons ht)]
    rfl
  | @array t u ts v w x _ _ ht hu hts hv hw hx =>
    have hend : (∀ ts : List Token, True) ∧ v.kind ≠ .mark .comma := by
      rw [hv]
      exact ⟨fun _ => trivial, nofun⟩
    have hperiods := takes_separated (takes_period ts.length) (takes_period ts.length)
      (fun _ => trivial) (v :: w :: x :: rest) last (Nat.le_refl _) hts hend
    rw [cons_append, bind_of_ok (accept_cons ht), if_pos rfl, cons_append,
      bind_of_ok (expect_cons hu _), append_assoc, cons_append, cons_append,
      singleton_append, bind_of_ok hperiods, bind_of_ok (expect_cons hv _),
      bind_of_ok (expect_cons hw _), bind_of_ok (scalarType_cons hx)]
    rfl

theorem takes_constDecl : Takes n constDecl ConstText fun _ _ => True := by
  intro ts d rest last _ h _
  cases h with
  | @intro t u ts v n e hn hu he hv =>
    have hend : Stops 4 ts v.kind := by
      rw [hv]
      exact stops_of_ends (by rfl) 4 ts
    unfold constDecl
    rw [cons_append, bind_of_ok (identifier_cons hn _)]
    dsimp only
    rw [cons_append, bind_of_ok (expect_cons hu _), append_assoc, singleton_append,
      bind_of_ok (takes_operand _ (v :: rest) last (Nat.le_refl _) he hend),
      bind_of_ok (expect_cons hv _)]
    rfl

theorem takes_varDecl : Takes n varDecl VarText fun _ _ => True := by
  intro ts d rest last _ h _
  cases h with
  | @intro t ts u us v names type periods hnames hu htype hv =>
    have hend : u.kind ≠ .mark .comma := by
      rw [hu]
      nofun
    have hread : Parse.type ⟨us ++ v :: rest, last⟩ = .ok (type, periods) ⟨v :: rest, last⟩ :=
      takes_type _ (v :: rest) last (Nat.le_refl _) htype trivial
    have hnames := takes_names _ "variable name" (u :: (us ++ v :: rest)) last (Nat.le_refl _)
      hnames hend
    have htext : t :: (ts ++ u :: (us ++ [v])) ++ rest = t :: ts ++ u :: (us ++ v :: rest) := by
      simp
    unfold varDecl
    rw [position_bind, htext, bind_of_ok hnames, bind_of_ok (expect_cons hu _), bind_of_ok hread]
    dsimp only
    rw [bind_of_ok (expect_cons hv _)]
    rfl

theorem takes_paramGroup : Takes n paramGroup ParamText fun _ _ => True := by
  have hrest : ∀ {ts u v} {names : List String} {type : ScalarType} (byReference : Bool)
      (p : Position) (rest : List Token) (last : Token), NamesText ts names →
      u.kind = .mark .colon → v.kind = type.kind → (do
        let names ← Parse.names "parameter name"
        let _ ← expect (.mark .colon) "':' after parameter names"
        return ⟨byReference, names, ← scalarType, p⟩ : Parse ParamGroup)
        ⟨ts ++ u :: v :: rest, last⟩ = .ok ⟨byReference, names, type, p⟩ ⟨rest, last⟩ := by
    intro ts u v names type byReference p rest last hnames hu hv
    have hend : u.kind ≠ .mark .comma := by
      rw [hu]
      nofun
    rw [bind_of_ok (takes_names _ _ (u :: v :: rest) last (Nat.le_refl _) hnames hend),
      bind_of_ok (expect_cons hu _), bind_of_ok (scalarType_cons hv)]
    rfl
  intro ts group rest last _ h _
  unfold paramGroup
  rw [position_bind]
  cases h with
  | @byValue t ts u v names type hnames hu hv =>
    have hne : (Input.mk (t :: ts ++ u :: v :: rest) last).kind ≠ .keyword .varKw := by
      have hkind : (Input.mk (t :: ts ++ u :: v :: rest) last).kind = .identifier :=
        (starts_names hnames).kind (u :: v :: rest) last
      rw [hkind]
      nofun
    have htext : t :: (ts ++ [u, v]) ++ rest = t :: ts ++ u :: v :: rest := by simp
    rw [htext, bind_of_ok (accept_of_ne hne)]
    exact hrest false t.position rest last hnames hu hv
  | @byReference t ts u v names type ht hnames hu hv =>
    have htext : t :: (ts ++ [u, v]) ++ rest = t :: (ts ++ u :: v :: rest) := by simp
    rw [htext, bind_of_ok (accept_cons ht)]
    exact hrest true t.position rest last hnames hu hv

theorem starts_param {group : ParamGroup} (h : ParamText ts group) :
    Starts ts (· ≠ .mark .closeParen) := by
  cases h with
  | @byValue t ts u v _ _ hnames =>
    have hkind : t.kind = .identifier := (starts_names hnames).kind [] u
    exact ⟨t, _, rfl, by rw [hkind]; nofun⟩
  | byReference ht => exact ⟨_, _, rfl, by rw [ht]; nofun⟩

theorem takes_paramGroups : Takes n paramGroups ParamsText fun _ k => k ≠ .mark .openParen := by
  intro ts groups rest last _ h hk
  unfold paramGroups
  cases h with
  | none =>
    rw [nil_append, bind_of_ok (accept_of_ne hk)]
    rfl
  | @empty t u ht hu =>
    rw [cons_append, bind_of_ok (accept_cons ht), if_pos rfl, kind_bind,
      singleton_append, kind_cons, if_pos hu, pure_bind]
    dsimp only
    rw [bind_of_ok (expect_cons hu _)]
    rfl
  | @some t ts u groups ht hgroups hu =>
    have hend : (∀ ts : List Token, True) ∧ u.kind ≠ .mark .semicolon := by
      rw [hu]
      exact ⟨fun _ => trivial, nofun⟩
    have hread := takes_separated (takes_paramGroup ts.length) (takes_paramGroup ts.length)
      (fun _ => trivial) (u :: rest) last (Nat.le_refl _) hgroups hend
    have hne := (starts_separated (fun _ _ => starts_param) hgroups).kind (u :: rest) last
    rw [cons_append, bind_of_ok (accept_cons ht), if_pos rfl, kind_bind, append_assoc,
      singleton_append, if_neg hne, bind_of_ok hread]
    dsimp only
    rw [bind_of_ok (expect_cons hu _)]
    rfl

theorem takes_heading : Takes n heading HeadingText fun _ _ => True := by
  intro ts h rest last _ hh _
  unfold heading
  rw [position_bind, kind_bind]
  cases hh with
  | @procedure t u ts v name groups ht hname hgroups hv =>
    have hend : v.kind ≠ .mark .openParen := by
      rw [hv]
      nofun
    rw [cons_append, kind_cons, ht]
    dsimp only
    rw [pure_bind, advance_cons, cons_append, bind_of_ok (identifier_cons hname _)]
    rw [append_assoc, singleton_append,
      bind_of_ok (takes_paramGroups _ (v :: rest) last (Nat.le_refl _) hgroups hend)]
    unfold returnType
    rw [if_neg Bool.false_ne_true, pure_bind, bind_of_ok (expect_cons hv _)]
    rfl
  | @function t u ts v w x name groups type ht hname hgroups hv hw hx =>
    have hend : v.kind ≠ .mark .openParen := by
      rw [hv]
      nofun
    have hreturn : returnType true ⟨v :: w :: x :: rest, last⟩ =
        .ok (some type) ⟨x :: rest, last⟩ := by
      unfold returnType
      rw [if_pos rfl, bind_of_ok (expect_cons hv _), bind_of_ok (scalarType_cons hw)]
      rfl
    rw [cons_append, kind_cons, ht]
    dsimp only
    rw [pure_bind, advance_cons, cons_append, bind_of_ok (identifier_cons hname _)]
    rw [append_assoc, cons_append, cons_append, singleton_append,
      bind_of_ok (takes_paramGroups _ (v :: w :: x :: rest) last (Nat.le_refl _) hgroups hend),
      bind_of_ok hreturn, bind_of_ok (expect_cons hx _)]
    rfl

theorem takes_programHead : Takes n programHead
    (fun us a => ProgramHeadText us a.1 a.2.1 a.2.2) fun _ _ => True := by
  rintro ts ⟨name, names, p⟩ rest last - h -
  unfold programHead
  rw [position_bind]
  cases h with
  | @plain t u v _ ht hn hv =>
    have hne : (Input.mk (v :: rest) last).kind ≠ .mark .openParen := by
      rw [kind_cons, hv]
      nofun
    rw [cons_append, bind_of_ok (expect_cons ht _), cons_append,
      bind_of_ok (identifier_cons hn _)]
    dsimp only
    rw [singleton_append, bind_of_ok (accept_of_ne hne), if_neg Bool.false_ne_true, pure_bind,
      bind_of_ok (expect_cons hv _)]
    rfl
  | @listed t u v ts w x _ _ ht hn hv hnames hw hx =>
    have hend : w.kind ≠ .mark .comma := by
      rw [hw]
      nofun
    rw [cons_append, bind_of_ok (expect_cons ht _), cons_append,
      bind_of_ok (identifier_cons hn _)]
    dsimp only
    rw [cons_append, bind_of_ok (accept_cons hv), if_pos rfl, append_assoc,
      cons_append, singleton_append,
      bind_of_ok (takes_names _ _ (w :: x :: rest) last (Nat.le_refl _) hnames hend),
      bind_of_ok (expect_cons hw _), pure_bind, bind_of_ok (expect_cons hx _)]
    rfl

end Takes

end Parse

end MiniPascal

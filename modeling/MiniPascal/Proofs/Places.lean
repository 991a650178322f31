import MiniPascal.Proofs.Numbers
import MiniPascal.Proofs.TokenOrder
import MiniPascal.Proofs.TokenTrees

/-!
# Places of declarations

The tree of a program without faults keeps, for the program, each head and each constant, the place
of a token of its own.
-/

namespace MiniPascal

open List

namespace Input

/-- The token behind what is left ends a text. -/
def Closed (i : Input) : Prop := i.last.kind.isLast = true

theorem Closed.of_le {i j : Input} (h : j.Closed) (hle : i ≤ j) : i.Closed := by
  unfold Closed
  rw [hle.2]
  exact h

def places (i : Input) : List Position := i.tokens.map Token.position

theorem places_sublist {i j : Input} (h : i ≤ j) : i.places.Sublist j.places :=
  h.1.sublist.map _

theorem Closed.places_eq {i : Input} (h : i.Closed) (hk : i.kind.isLast = false) :
    i.places = i.position :: i.advance.places := by
  obtain ⟨tokens, last⟩ := i
  cases tokens with
  | nil =>
    have hlast : last.kind.isLast = true := h
    rw [show (Input.mk [] last).kind = last.kind from rfl, hlast] at hk
    cases hk
  | cons t tokens => rfl

end Input

/-- A state of reading, with the input that is left in it. -/
class Remaining (σ : Type) [Preorder σ] where
  input : σ → Input
  mono {s s' : σ} : s' ≤ s → input s' ≤ input s

instance : Remaining Input := ⟨id, id⟩

instance : Remaining Session := ⟨Session.input, fun h => h.1⟩

open Remaining

/-- Of the places that are kept before and those of the tokens left, reading keeps some in their
order: those that are in view in its result, before those of the tokens that are left then. -/
def Orders {ε σ α : Type} [Preorder σ] [Remaining σ] (kept : List Position)
    (view : α → List Position) (x : EStateM ε σ α) : Prop :=
  ∀ s a s', x s = .ok a s' → (input s).Closed →
    s' ≤ s ∧ (view a ++ (input s').places).Sublist (kept ++ (input s).places)

namespace Orders

variable {ε σ α β : Type} [Preorder σ] [Remaining σ] {kept : List Position}
  {view : α → List Position} {view' : β → List Position} {x : EStateM ε σ α}
  {f : α → EStateM ε σ β}

theorem of_ok (view : α → List Position) (hx : Orders kept view x) {s s' : σ} {a : α}
    (h : x s = .ok a s') (hs : (input s).Closed) :
    s' ≤ s ∧ (view a ++ (input s').places).Sublist (kept ++ (input s).places) :=
  hx s a s' h hs

theorem pure {a : α} (h : (view a).Sublist kept) : Orders kept view (pure a : EStateM ε σ α) := by
  rintro s _ _ ⟨⟩ _
  exact ⟨le_refl s, h.append_right _⟩

theorem bind (hx : Orders kept view x) (hf : ∀ a, Orders (view a) view' (f a)) :
    Orders kept view' (x >>= f) := by
  intro s b s'' h hs
  obtain ⟨a, s', hxs, hfs⟩ := bind_eq_ok h
  obtain ⟨hle, hsub⟩ := hx s a s' hxs hs
  obtain ⟨hle', hsub'⟩ := hf a s' b s'' hfs (hs.of_le (mono hle))
  exact ⟨le_trans hle' hle, hsub'.trans hsub⟩

theorem of_advances (hx : Advances x) : Orders kept (fun _ => kept) x := by
  intro s a s' h _
  have hle := hx.of_ok h
  exact ⟨hle, (Input.places_sublist (mono hle)).append_left kept⟩

theorem after (hx : Advances x) (hf : ∀ a, Orders kept view' (f a)) :
    Orders kept view' (x >>= f) :=
  (of_advances hx).bind hf

theorem ite {c : Prop} [Decidable c] {y : EStateM ε σ α} (hx : Orders kept view x)
    (hy : Orders kept view y) : Orders kept view (if c then x else y) := by
  split
  · exact hx
  · exact hy

end Orders

namespace Parse

variable {α : Type} {i i' : Input} {what : String} {kept : List Position}

theorem expect_ok {k : Token.Kind} {t : Token} (h : expect k what i = .ok t i') :
    i.kind = k ∧ t = i.current ∧ i' = i.advance := by
  obtain ⟨k', i₁, hk, h⟩ := bind_eq_ok h
  cases hk
  split at h
  · next hk =>
    cases h
    exact ⟨hk, rfl, rfl⟩
  · cases h

theorem orders_rest (place : α → Position) {x : Parse α} {a : α}
    (hx : Orders (kept ++ [i.position]) (fun a => kept ++ [place a]) x)
    (h : x i.advance = .ok a i') (hi : i.Closed) (hk : i.kind.isLast = false) :
    i' ≤ i ∧ (kept ++ [place a] ++ i'.places).Sublist (kept ++ i.places) := by
  have hle := advances_advance.of_ok (show advance i = .ok _ i.advance from rfl)
  obtain ⟨hle', hsub⟩ := hx i.advance a i' h (hi.of_le hle)
  refine ⟨le_trans hle' hle, ?_⟩
  rw [hi.places_eq hk, append_cons kept i.position]
  exact hsub

theorem orders_identifier : Orders kept (fun r => kept ++ [r.2]) (identifier what) := by
  intro i r i' h hi
  obtain ⟨t, i₁, ht, h⟩ := bind_eq_ok h
  obtain ⟨hk, rfl, rfl⟩ := expect_ok ht
  refine orders_rest Prod.snd ?_ h hi (by rw [hk]; rfl)
  split <;> exact .pure (.refl _)

theorem orders_constDecl : Orders kept (fun d => kept ++ [d.position]) constDecl :=
  orders_identifier.bind fun _ => .after (advances_expect _ _) fun _ =>
    .after (advances tidy_operand) fun _ => .after (advances_expect _ _) fun _ => .pure (.refl _)

theorem orders_heading : Orders kept (fun h => kept ++ [h.position]) heading := by
  intro i h i' hh hi
  have hrest : ∀ isFunction, headingAt i.position isFunction i = .ok h i' →
      i.kind.isLast = false →
      i' ≤ i ∧ (kept ++ [h.position] ++ i'.places).Sublist (kept ++ i.places) := by
    intro isFunction h
    obtain ⟨_, _, ⟨⟩, h⟩ := bind_eq_ok h
    refine orders_rest Heading.position (.after (advances_identifier _) fun _ => ?_) h hi
    exact .after (advances tidy_paramGroups) fun _ => .after (advances (tidy_returnType _)) fun _ =>
      .after (advances_expect _ _) fun _ => .pure (.refl _)
  obtain ⟨_, _, ⟨⟩, hh⟩ := bind_eq_ok hh
  obtain ⟨_, _, ⟨⟩, hh⟩ := bind_eq_ok hh
  split at hh
  · next hk => exact hrest true hh (by rw [hk]; rfl)
  · next hk => exact hrest false hh (by rw [hk]; rfl)
  · obtain ⟨_, _, hfail, _⟩ := bind_eq_ok hh
    cases hfail

theorem orders_programHead : Orders kept (fun r => kept ++ [r.2.2]) programHead := by
  intro i r i' h hi
  obtain ⟨_, _, ⟨⟩, h⟩ := bind_eq_ok h
  obtain ⟨_, _, hword, h⟩ := bind_eq_ok h
  obtain ⟨hk, _, rfl⟩ := expect_ok hword
  refine orders_rest (·.2.2) (.after (advances_identifier _) fun _ => ?_) h hi (by rw [hk]; rfl)
  refine .after (advances_accept _) fun _ => .ite ?_ ?_
  · exact .after (advances (tidy_names _)) fun _ => .after (advances_expect _ _) fun _ =>
      .after (.pure _) fun _ => .after (advances_expect _ _) fun _ => .pure (.refl _)
  · exact .after (.pure _) fun _ => .after (advances_expect _ _) fun _ => .pure (.refl _)

end Parse

namespace Recover

variable {s s' : Session} {α : Type} {decl x : Parse α} {kept : List Position}

theorem attempt_ok {result : Except Fault α} (h : attempt (monadLift x) s = .ok result s') :
    (∃ a, result = .ok a ∧ x s.input = .ok a s'.input) ∨
      ∃ e, result = .error e ∧ x s.input = .error e s'.input := by
  unfold attempt at h
  rw [Parse.lift_apply] at h
  cases hx : x s.input with
  | ok a i =>
    rw [hx] at h
    cases h
    exact .inl ⟨a, rfl, rfl⟩
  | error e i =>
    rw [hx] at h
    cases h
    exact .inr ⟨e, rfl, rfl⟩

theorem orders_orSkip {place : α → List Position} (hx : Orders kept (fun a => kept ++ place a) x)
    (htidy : Tidy x) (stops : List Token.Kind) :
    Orders kept (fun a => kept ++ a.elim [] place) (orSkip (monadLift x) stops) := by
  intro s a s' h hs
  have hle := (advances (tidy_orSkip htidy stops)).of_ok h
  refine ⟨hle, ?_⟩
  obtain ⟨result, s₁, hattempt, h⟩ := bind_eq_ok h
  rcases attempt_ok hattempt with ⟨b, rfl, hread⟩ | ⟨e, rfl, -⟩
  · cases h
    exact (hx _ _ _ hread hs).2
  · obtain ⟨_, _, _, h⟩ := bind_eq_ok h
    obtain ⟨_, _, _, h⟩ := bind_eq_ok h
    obtain ⟨_, _, _, h⟩ := bind_eq_ok h
    cases h
    dsimp only
    rw [Option.elim_none, append_nil]
    exact (Input.places_sublist hle.1).append_left kept

theorem orders_declarations {place : α → Position}
    (hdecl : ∀ kept, Orders kept (fun d => kept ++ [place d]) decl) (htidy : Tidy decl)
    (stops : List Token.Kind) (n : Nat) :
    Orders kept (fun ds => kept ++ ds.map place) (declarations decl stops n) := by
  induction n generalizing kept with
  | zero => exact .pure (by simp)
  | succ n ih =>
    refine .after advances_kind fun _ => .ite ?_ (.pure (by simp))
    refine (orders_orSkip (hdecl kept) htidy stops).bind fun d => ?_
    cases d with
    | some d => exact ih.bind fun ds => .pure (by simp)
    | none => simpa using ih

theorem orders_constSection :
    Orders kept (fun ds => kept ++ ds.map ConstDecl.position) constSection := by
  refine .after (advances_accept _) fun _ =>
    .ite (.after advances_kind fun _ => ?_) (.pure (by simp))
  have hdecls : ∀ stops, Orders kept (fun ds => kept ++ ds.map ConstDecl.position) (do
      declarations Parse.constDecl stops (← get).input.tokens.length) := fun stops =>
    .after .get fun _ =>
      orders_declarations (fun _ => Parse.orders_constDecl) Parse.tidy_constDecl _ _
  exact .ite (.after (advances_recordExpected _) fun _ => hdecls _) (hdecls _)

end Recover

/-- The numbers of declarations are in their ranges: bounds of arrays are in order and count the
elements in a word, and a number in the value of a constant has no sign. -/
structure Body.Ranged (b : Body) : Prop where
  arrays : ∀ d ∈ b.vars, ∀ period ∈ d.periods, period.Ranged
  consts : ∀ d ∈ b.consts, d.value.Unsigned

def Subprogram.places (s : Subprogram) : List Position :=
  s.heading.position :: s.body.consts.map ConstDecl.position

/-- The places of a program, of its heads and of all constants, as they are read. -/
def Program.places (p : Program) : List Position :=
  p.position :: (p.body.consts.map ConstDecl.position ++ p.subprograms.flatMap Subprogram.places)

def Program.Ranged (p : Program) : Prop := p.body.Ranged ∧ ∀ s ∈ p.subprograms, s.body.Ranged

namespace Recover

variable {s s' : Session} {kept : List Position}

theorem orders_subprogram :
    Orders kept (fun s => kept ++ s.elim [] Subprogram.places) subprogram := by
  refine (orders_orSkip Parse.orders_heading Parse.tidy_heading _).bind fun heading => ?_
  have hbody : ∀ kept, Orders kept (fun b => kept ++ b.consts.map ConstDecl.position)
      subprogramBody := fun _ => orders_constSection.bind fun _ =>
    .after advances_varSection fun _ => .after advances_block fun _ => .pure (.refl _)
  refine (hbody _).bind fun body => .after (advances_demand _ _) fun _ => .pure ?_
  cases heading <;> simp [Subprogram.places]

theorem orders_subprogramsWithin (n : Nat) :
    Orders kept (fun ss => kept ++ ss.flatMap Subprogram.places) (subprogramsWithin n) := by
  induction n generalizing kept with
  | zero => exact .pure (by simp)
  | succ n ih =>
    refine .after advances_kind fun _ => ?_
    split
    -- Both keywords go on with a subprogram.
    case h_3 => exact .pure (by simp)
    all_goals
      refine orders_subprogram.bind fun s => ?_
      cases s with
      | some s => exact ih.bind fun ss => .pure (by simp)
      | none => simpa using ih

theorem programHead_ok {name : String} {parameters : List String} {p : Position}
    (h : programHead s = .ok (name, parameters, p) s') (hs : s.input.Closed) :
    s' ≤ s ∧ ((p :: s'.input.places).Sublist s.input.places ∨ ∃ e, Note.fault e ∈ s'.notes) := by
  obtain ⟨result, s₁, hhead, h⟩ := bind_eq_ok h
  have hle := (advances_attempt (Phrase.advances Parse.tidy_programHead)).of_ok hhead
  rcases attempt_ok hhead with ⟨head, rfl, hread⟩ | ⟨e, rfl, -⟩
  · cases h
    have horders : Orders [] (fun r => [r.2.2]) Parse.programHead := Parse.orders_programHead
    exact ⟨hle, .inl (horders _ _ _ hread hs).2⟩
  · obtain ⟨_, s₂, hp, h⟩ := bind_eq_ok h
    cases hp
    obtain ⟨_, s₃, hnoted, h⟩ := bind_eq_ok h
    obtain ⟨_, s₄, hskip, h⟩ := bind_eq_ok h
    obtain ⟨_, s₅, haccept, h⟩ := bind_eq_ok h
    cases h
    have hle' := le_trans ((advances_accept _).of_ok haccept) ((advances_skipTo _).of_ok hskip)
    refine ⟨le_trans hle' (le_trans ((advances_record e).of_ok hnoted) hle), .inr ?_⟩
    cases e with
    | lexical e => cases hnoted
    | phrase e =>
      cases hnoted
      exact ⟨e, hle'.2.subset (mem_append_right _ mem_cons_self)⟩

/-- A program keeps places of its tokens in order, or a fault is noted. Its subprograms keep theirs
anyway. -/
theorem program_ok {p : Program} (h : program s = .ok p s') (hs : s.input.Closed) :
    (p.subprograms.flatMap Subprogram.places).Sublist s.input.places ∧
      (p.places.Sublist s.input.places ∨ ∃ e, Note.fault e ∈ s'.notes) := by
  obtain ⟨s₂, h, hpoint⟩ := program_eq_ok h
  obtain ⟨⟨name, parameters, place⟩, s₁, hhead, h⟩ := bind_eq_ok h
  obtain ⟨hle, hplace⟩ := programHead_ok hhead hs
  obtain ⟨hle', hsub⟩ : s₂ ≤ s₁ ∧ (p.places ++ s₂.input.places).Sublist
      ([place] ++ s₁.input.places) := by
    refine Orders.of_ok Program.places ?_ h (hs.of_le hle.1)
    refine orders_constSection.bind fun consts => .after advances_varSection fun vars => ?_
    refine .after .get fun _ => (orders_subprogramsWithin _).bind fun subprograms => ?_
    exact .after advances_block fun _ => .pure (by simp [Program.places])
  have hplaces := ((sublist_append_left p.places _).trans hsub).tail
  refine ⟨((sublist_append_right _ _).trans hplaces).trans (Input.places_sublist hle.1), ?_⟩
  rcases hplace with hplace | ⟨e, he⟩
  · exact .inl ((sublist_append_left _ _).trans (hsub.trans hplace))
  · exact .inr ⟨e, (le_trans ((advances tidy_pointed).of_ok hpoint) hle').2.subset he⟩

end Recover

theorem places_ofTokens (tokens : List Token) :
    (Input.ofTokens tokens).places.Sublist (tokens.map Token.position) :=
  (takeWhile_sublist _).map _

variable {source : String} {p : Program}

theorem Expr.Drawn.unsigned {e : Expr} (h : e.Drawn (· ∈ scan source)) : e.Unsigned := by
  have hint : ∀ {p v}, (Expr.int p v).Drawn (· ∈ scan source) → 0 ≤ v.toInt := by
    rintro p v ⟨⟩
    next ht hv => exact scanFrom_unsigned _ _ _ ht _ hv.2
  cases h with
  | int ht hv => exact hint (.int ht hv)
  | unary _ he =>
    cases he with
    | int ht hv => exact hint (.int ht hv)
    | _ => trivial
  | _ => trivial

theorem Body.Drawn.ranged {source : String} {b : Body} (h : b.Drawn (· ∈ scan source)) :
    b.Ranged where
  arrays d hd period hperiod := ((h.vars d hd).periods period hperiod).ranged
  consts d hd := (h.consts d hd).value.unsigned

/-- In a program that was read without faults, the program, the heads and the constants stand at
different places, and the numbers of declarations are in their ranges. -/
theorem parse_scan (h : parse (scan source) = .ok (p, [])) : p.places.Nodup ∧ p.Ranged := by
  obtain ⟨s, hp, hnotes⟩ := program_of_parse h
  have hdrawn := parse_drawn h
  have hranged : p.Ranged :=
    ⟨hdrawn.body.ranged, fun s hs => (hdrawn.subprograms s hs).body.ranged⟩
  obtain ⟨_, hplaces | ⟨e, he⟩⟩ := Recover.program_ok hp (Input.ofTokens_isLast _)
  · have hsub := hplaces.trans (places_ofTokens (scan source))
    exact ⟨hsub.nodup (scan_places_nodup source), hranged⟩
  · have := filterMap_eq_nil_iff.mp hnotes _ he
    cases this

theorem heads_sublist (ss : List Subprogram) :
    (ss.map fun s => s.heading.position).Sublist (ss.flatMap Subprogram.places) := by
  induction ss with
  | nil => exact List.Sublist.refl _
  | cons s ss ih => exact .cons_cons _ (ih.trans (sublist_append_right _ _))

theorem heads_nodup_of_parse {errors : List SyntaxError}
    (h : parse (scan source) = .ok (p, errors)) :
    (p.subprograms.map fun s => s.heading.position).Nodup := by
  obtain ⟨s, hp, _⟩ := program_of_parse h
  obtain ⟨hplaces, _⟩ := Recover.program_ok hp (Input.ofTokens_isLast _)
  exact (((heads_sublist _).trans hplaces).trans (places_ofTokens _)).nodup (scan_places_nodup source)

end MiniPascal

import MiniPascal.Proofs.Reading

/-!
# Readers are made of steps

All readers of the grammar are put together from a few steps. Whatever the steps have in common and
going on keeps is common to all readers.
-/

namespace MiniPascal

open List

instance : LawfulMonadLift Parse Phrase where
  monadLift_pure _ := rfl
  monadLift_bind x f := by
    funext s
    cases h : x s.input <;> simp [bind, EStateM.bind, MonadLift.monadLift, h]

instance : LawfulMonadLift Recover Phrase where
  monadLift_pure _ := rfl
  monadLift_bind x f := by
    funext s
    cases h : x s <;> simp [bind, EStateM.bind, MonadLift.monadLift, h]

namespace Step

def current : Phrase Token := do return (← get).input.current

/-- The number of tokens left, which bounds what is still to be read. -/
def count : Phrase Nat := do return (← get).input.tokens.length

def begins : Phrase Bool := do return (← get).input.beginsStatement

def advance : Phrase Unit := modify fun s => { s with input := s.input.advance }

def skip (stops : List Token.Kind) : Phrase Unit :=
  modify fun s => { s with input := s.input.skipTo stops }

def note (n : Note) : Phrase Unit := modify fun s => { s with notes := s.notes ++ [n] }

/-- Gives up for good before input that is no token. -/
def refuse : Phrase Unit := do
  let t ← current
  if t.kind = .invalid then throw (.lexical (.ofToken t)) else return

def giveUp {α : Type} (e : SyntaxError) : Phrase α := throw (.phrase e)

def attempt {α : Type} (p : Phrase α) : Phrase (Except Fault α) := fun s =>
  match p s with
  | .ok a s' => .ok (.ok a) s'
  | .error e s' => .ok (.error e) s'

end Step

open Step

theorem refuse_apply (s : Session) : refuse s =
    if s.input.kind = .invalid then .error (.lexical (.ofToken s.input.current)) s
    else .ok () s := by
  change (if s.input.kind = .invalid then throw (.lexical (.ofToken s.input.current))
    else pure () : Phrase Unit) s = _
  split <;> rfl

variable {α : Type} {x : Phrase α}

theorem refuse_bind (f : Unit → Phrase α) (s : Session) : (refuse >>= f) s =
    if s.input.kind = .invalid then .error (.lexical (.ofToken s.input.current)) s else f () s := by
  change EStateM.bind refuse f s = _
  unfold EStateM.bind
  rw [refuse_apply]
  by_cases h : s.input.kind = .invalid <;> simp [h]

/-- The readers made of steps. After a part that met input that is no token, nothing goes on. -/
inductive Made : {α : Type} → Phrase α → Prop
  | pure {α : Type} (a : α) : Made (pure a : Phrase α)
  | bind {α β : Type} {x : Phrase α} {f : α → Phrase β} :
      Made x → (∀ a, Made (f a)) → Made (x >>= f)
  | current : Made current
  | count : Made count
  | begins : Made begins
  | advance : Made advance
  | skip (stops : List Token.Kind) : Made (skip stops)
  | note (n : Note) : Made (note n)
  | refuse : Made refuse
  | giveUp {α : Type} (e : SyntaxError) : Made (giveUp e : Phrase α)
  | attempt {α β : Type} {p : Phrase α} {f : Except Fault α → Phrase β} :
      Made p → (∀ a, Made (f (.ok a))) → (∀ e, Made (f (.error (.phrase e)))) →
      (∀ e s, f (.error (.lexical e)) s = .error (.lexical e) s) → Made (attempt p >>= f)

theorem Step.advances_attempt {p : Phrase α} (h : Advances p) : Advances (Step.attempt p) := by
  intro s
  have hs := h s
  unfold Step.attempt
  cases hp : p s <;> rw [hp] at hs <;> exact hs

theorem Step.advances_after {β : Type} {f : Except Fault α → Phrase β}
    (hok : ∀ a, Advances (f (.ok a))) (hphrase : ∀ e, Advances (f (.error (.phrase e))))
    (hlexical : ∀ e s, f (.error (.lexical e)) s = .error (.lexical e) s) : ∀ r, Advances (f r)
  | .ok a => hok a
  | .error (.phrase e) => hphrase e
  | .error (.lexical e) => fun s => by rw [hlexical]

theorem Made.advances (h : Made x) : Advances x := by
  induction h with
  | pure a => exact .pure a
  | bind _ _ hx hf => exact hx.bind hf
  | current | count | begins => exact .bind .get fun _ => .pure _
  | advance => exact fun s => ⟨⟨tail_suffix s.input.tokens, rfl⟩, prefix_rfl⟩
  | skip stops => exact fun s => ⟨⟨dropWhile_suffix _, rfl⟩, prefix_rfl⟩
  | note n => exact fun s => ⟨le_refl s.input, prefix_append s.notes [n]⟩
  | refuse => exact .bind (.bind .get fun _ => .pure _) fun t => .ite (.throw _) (.pure _)
  | giveUp e => exact .throw _
  | attempt _ _ _ hlexical hp hok hphrase =>
    exact .bind (Step.advances_attempt hp) (Step.advances_after hok hphrase hlexical)

/-- A reader of any kind that is made of steps. -/
def Built {m : Type → Type} [MonadLiftT m Phrase] {α : Type} (x : m α) : Prop :=
  Made (liftM x : Phrase α)

/-- What is wrong with a token that should be a number. -/
def Token.numberFault? (t : Token) : Option SyntaxFault :=
  match t.payload with
  | some (.integer _) | some (.real _) => none
  | _ => some (.malformedNumber t.text)

/-- What is wrong with the bounds of a dimension. -/
def boundsFault? (lower upper : Int64) : Option SyntaxFault :=
  if upper < lower then some (.boundsReversed lower upper)
  else if (Period.size? ⟨lower, upper⟩).isNone then some (.boundsTooLarge lower upper)
  else none

/-- The bounds of a dimension before they are examined. -/
def Parse.bounds : Parse (Int64 × Int64) := do
  let lower ← bound
  let _ ← expect (.mark .dotDot) "'..' in array bounds"
  let upper ← bound
  return (lower, upper)

/-- The parts that are examined after they were read, and what can be wrong with them: a number, by
the token that it begins with, and the bounds of a dimension. -/
inductive Examined : {β : Type} → Parse β → (Token → β → Option SyntaxFault) → Prop
  | number : Examined Parse.advance fun t _ => t.numberFault?
  | bounds : Examined Parse.bounds fun _ b => boundsFault? b.1 b.2

/-- The readers made of steps that find fault only with the current token, or with a part that they
have examined. The latter is blamed on the token that the part begins with. The fault of a part that
gave up is noted before anything else is done. -/
inductive Orderly : {α : Type} → Phrase α → Prop
  | pure {α : Type} (a : α) : Orderly (pure a : Phrase α)
  | bind {α β : Type} {x : Phrase α} {f : α → Phrase β} :
      Orderly x → (∀ a, Orderly (f a)) → Orderly (x >>= f)
  | current : Orderly current
  | count : Orderly count
  | begins : Orderly begins
  | advance : Orderly advance
  | skip (stops : List Token.Kind) : Orderly (skip stops)
  | resumed (p : Position) : Orderly (note (.resumed p))
  | refuse : Orderly refuse
  | noteHere (what : String) :
      Orderly (current >>= fun t => note (.fault ⟨.expected what t, t.position⟩))
  | giveUpHere {α : Type} (what : String) :
      Orderly (current >>= fun t => giveUp ⟨.expected what t, t.position⟩ : Phrase α)
  | examined {α β : Type} {p : Parse β} {fault? : Token → β → Option SyntaxFault}
      {f : Token → β → Phrase α} : Examined p fault? → Orderly (liftM p : Phrase β) →
      (∀ t b e, fault? t b = some e → f t b = giveUp ⟨e, t.position⟩) →
      (∀ t b, fault? t b = none → Orderly (f t b)) →
      Orderly (current >>= fun t => (liftM p : Phrase β) >>= f t)
  | attempt {α β : Type} {p : Phrase α} {f : Except Fault α → Phrase β}
      {g : SyntaxError → Phrase β} : Orderly p → (∀ a, Orderly (f (.ok a))) →
      (∀ e, f (.error (.phrase e)) = note (.fault e) >>= fun _ => g e) → (∀ e, Orderly (g e)) →
      (∀ e s, f (.error (.lexical e)) s = .error (.lexical e) s) → Orderly (attempt p >>= f)

theorem Orderly.made (h : Orderly x) : Made x := by
  induction h with
  | pure a => exact .pure a
  | bind _ _ hx hf => exact .bind hx hf
  | current => exact .current
  | count => exact .count
  | begins => exact .begins
  | advance => exact .advance
  | skip stops => exact .skip stops
  | resumed p => exact .note _
  | refuse => exact .refuse
  | noteHere what => exact .bind .current fun _ => .note _
  | giveUpHere what => exact .bind .current fun _ => .giveUp _
  | @examined _ _ _ fault? f _ _ hfault _ hp hf =>
    refine .bind .current fun t => .bind hp fun b => ?_
    cases h : fault? t b with
    | none => exact hf t b h
    | some e =>
      rw [hfault t b e h]
      exact .giveUp _
  | attempt _ _ hphrase _ hlexical hp hok hg =>
    refine .attempt hp hok (fun e => ?_) hlexical
    rw [hphrase]
    exact .bind (.note _) fun _ => hg e

/-- A reader of any kind that finds fault in order. -/
def Tidy {m : Type → Type} [MonadLiftT m Phrase] {α : Type} (x : m α) : Prop :=
  Orderly (liftM x : Phrase α)

namespace Tidy

variable {m : Type → Type} [Monad m] [MonadLiftT m Phrase] [LawfulMonadLiftT m Phrase]
  {α β : Type} {x y : m α}

theorem pure (a : α) : Tidy (pure a : m α) := by
  unfold Tidy
  rw [liftM_pure]
  exact .pure a

theorem bind {f : α → m β} (hx : Tidy x) (hf : ∀ a, Tidy (f a)) : Tidy (x >>= f) := by
  unfold Tidy
  rw [liftM_bind]
  exact .bind hx hf

theorem map [LawfulMonad m] (hx : Tidy x) (f : α → β) : Tidy (f <$> x) := by
  rw [map_eq_pure_bind]
  exact hx.bind fun a => .pure (f a)

omit [Monad m] [LawfulMonadLiftT m Phrase] in
theorem ite {c : Prop} [Decidable c] (hx : Tidy x) (hy : Tidy y) : Tidy (if c then x else y) := by
  split
  · exact hx
  · exact hy

end Tidy

section Advances

variable {α : Type}

theorem Phrase.advances {x : Phrase α} (h : Tidy x) : Advances x := h.made.advances

theorem Parse.advances {x : Parse α} (h : Tidy x) : Advances x := by
  have hlift : Advances (monadLift x : Phrase α) := h.made.advances
  intro i
  have hs := hlift ⟨i, []⟩
  rw [Parse.lift_apply] at hs
  cases hx : x i <;> rw [hx] at hs <;> exact hs.1

theorem Recover.advances {x : Recover α} (h : Tidy x) : Advances x := by
  have hlift : Advances (monadLift x : Phrase α) := h.made.advances
  intro s
  have hs := hlift s
  rw [Recover.lift_apply] at hs
  cases hx : x s <;> rw [hx] at hs <;> exact hs

end Advances

namespace Parse

open Tidy

variable {α : Type}

theorem tidy_get {f : Input → Parse α} (g : Token → Nat → Parse α)
    (hg : ∀ i, f i = g i.current i.tokens.length) (h : ∀ t n, Tidy (g t n)) :
    Tidy (get >>= f : Parse α) := by
  have hf : f = fun i => g i.current i.tokens.length := funext hg
  subst hf
  exact Orderly.bind .current fun t => Orderly.bind .count fun n => h t n

theorem tidy_kind : Tidy kind :=
  tidy_get (fun t _ => pure t.kind) (fun _ => rfl) fun _ _ => .pure _

theorem tidy_position : Tidy position :=
  tidy_get (fun t _ => pure t.position) (fun _ => rfl) fun _ _ => .pure _

theorem tidy_advance : Tidy advance :=
  Orderly.bind .current fun t => Orderly.bind .advance fun _ => .pure t

theorem tidy_expected (what : String) : Tidy (expected what : Parse α) := by
  have hsplit : (liftM (expected what : Parse α) : Phrase α) =
      refuse >>= fun _ => Step.current >>= fun t => giveUp ⟨.expected what t, t.position⟩ := by
    funext s
    change EStateM.Result.error (s.input.unexpected what) s = _
    rw [refuse_bind]
    unfold Input.unexpected
    split <;> rfl
  unfold Tidy
  rw [hsplit]
  exact .bind .refuse fun _ => .giveUpHere what

theorem tidy_accept (k : Token.Kind) : Tidy (accept k) :=
  .bind tidy_kind fun _ => ite (.bind tidy_advance fun _ => .pure _) (.pure _)

theorem tidy_expect (k : Token.Kind) (what : String) : Tidy (expect k what) :=
  .bind tidy_kind fun _ => ite tidy_advance (tidy_expected what)

theorem tidy_identifier (what : String) : Tidy (identifier what) :=
  .bind (tidy_expect _ _) fun t => by split <;> exact .pure _

theorem advances_identifier (what : String) : Advances (identifier what) :=
  advances (tidy_identifier what)

theorem tidy_more (separator : Token.Kind) {item : Parse α} (h : Tidy item) :
    ∀ n, Tidy (more separator item n)
  | 0 => .pure _
  | n + 1 => .bind (tidy_accept separator) fun _ =>
    ite (.bind h fun _ => .bind (tidy_more separator h n) fun _ => .pure _) (.pure _)

theorem tidy_separated (separator : Token.Kind) {first item : Parse α} (hf : Tidy first)
    (h : Tidy item) : Tidy (separated separator first item) :=
  .bind hf fun a => tidy_get (fun _ n => do return a :: (← more separator item n)) (fun _ => rfl)
    fun _ n => .bind (tidy_more separator h n) fun _ => .pure _

theorem tidy_names (what : String) : Tidy (names what) :=
  tidy_separated _ ((tidy_identifier _).map _) ((tidy_identifier _).map _)

section Expressions

variable {operand : Parse Expr} (h : Tidy operand)
include h

theorem tidy_chain (tier : Nat) : ∀ n left, Tidy (chain tier operand n left)
  | 0, _ => .pure _
  | n + 1, left => .bind tidy_kind fun k => by
    split
    · exact .pure _
    · exact ite (.bind tidy_advance fun _ => .bind h fun _ => tidy_chain tier n _) (.pure _)

theorem tidy_tier (tier : Nat) : Tidy (Parse.tier tier operand) :=
  .bind h fun left => tidy_get (fun _ n => chain tier operand n left) (fun _ => rfl)
    fun _ n => tidy_chain h tier n left

theorem tidy_expressionOver : Tidy (expressionOver operand) :=
  tidy_tier (tidy_tier (tidy_tier h 3) 2) 1

theorem tidy_argumentList : Tidy (argumentList operand) :=
  .bind (tidy_expect _ _) fun _ => .bind (tidy_accept _) fun _ =>
    ite (.pure _) (.bind (tidy_separated _ h h) fun _ => .bind (tidy_expect _ _) fun _ => .pure _)

theorem tidy_indexList : Tidy (indexList operand) :=
  .bind (tidy_expect _ _) fun _ => .bind (tidy_separated _ h h) fun _ =>
    .bind (tidy_expect _ _) fun _ => .pure _

theorem tidy_named : Tidy (named operand) :=
  .bind (tidy_identifier _) fun _ => .bind tidy_kind fun _ => by
    split
    · exact .bind (tidy_argumentList h) fun _ => .pure _
    · exact .bind (tidy_indexList h) fun _ => .pure _
    · exact .pure _

end Expressions

/-- The literal of a number that was taken, if nothing is wrong with it. -/
def numberOf (t : Token) : Parse Expr :=
  match t.payload with
  | some (.integer v) => return .int t.position v
  | some (.real v) => return .real t.position v
  | _ => throw (.phrase ⟨.malformedNumber t.text, t.position⟩)

theorem tidy_number : Tidy number := by
  have hsplit : (liftM number : Phrase Expr) = Step.current >>= fun t =>
      (liftM advance : Phrase Token) >>= fun _ => liftM (numberOf t) := rfl
  unfold Tidy
  rw [hsplit]
  refine .examined .number tidy_advance (fun t _ e h => ?_) fun t _ h => ?_
  all_goals
    unfold Token.numberFault? at h
    unfold numberOf
  · split at h
    · cases h
    · cases h
    · cases h
      rfl
  · split at h
    · exact .pure _
    · exact .pure _
    · cases h

theorem tidy_quoted : Tidy quoted :=
  .bind tidy_advance fun t => by split <;> exact .pure _

theorem tidy_operandWithin : ∀ n, Tidy (operandWithin n)
  | 0 => tidy_expected _
  | n + 1 => .bind tidy_kind fun k => by
    have ih := tidy_operandWithin n
    have hunary : ∀ op, Tidy (do
        return Expr.unary (← advance).position op (← operandWithin n) : Parse Expr) :=
      fun op => .bind tidy_advance fun _ => .bind ih fun _ => .pure _
    have hbool : ∀ v, Tidy (do return Expr.bool (← advance).position v : Parse Expr) :=
      fun v => .bind tidy_advance fun _ => .pure _
    split
    · exact tidy_number
    · exact tidy_number
    · exact tidy_quoted
    · exact hbool true
    · exact hbool false
    · exact .bind tidy_advance fun _ => .bind (tidy_expressionOver ih) fun _ =>
        .bind (tidy_expect _ _) fun _ => .pure _
    · exact hunary .plus
    · exact hunary .minus
    · exact hunary .not
    · exact tidy_named (tidy_expressionOver ih)
    · exact tidy_expected _

theorem advances_operandWithin (n : Nat) : Advances (operandWithin n) :=
  advances (tidy_operandWithin n)

theorem tidy_operand : Tidy operand :=
  tidy_get (fun _ n => operandWithin (n + 1)) (fun _ => rfl) fun _ _ => tidy_operandWithin _

theorem tidy_expression : Tidy expression :=
  tidy_get (fun _ n => expressionOver (operandWithin (n + 1))) (fun _ => rfl)
    fun _ _ => tidy_expressionOver (tidy_operandWithin _)

theorem advances_expression : Advances expression := advances tidy_expression

theorem tidy_scalarType : Tidy scalarType :=
  .bind tidy_kind fun _ => by
    split
    · exact .bind tidy_advance fun _ => .pure _
    · exact .bind tidy_advance fun _ => .pure _
    · exact .bind tidy_advance fun _ => .pure _
    · exact .bind tidy_advance fun _ => .pure _
    · exact tidy_expected _

theorem tidy_bound : Tidy bound :=
  .bind (tidy_accept _) fun _ => .bind (tidy_expect _ _) fun _ => .pure _

theorem tidy_bounds : Tidy bounds :=
  .bind tidy_bound fun _ => .bind (tidy_expect _ _) fun _ => .bind tidy_bound fun _ => .pure _

/-- The dimension with the given bounds, if nothing is wrong with them. -/
def periodOf (p : Position) (b : Int64 × Int64) : Parse Period :=
  match boundsFault? b.1 b.2 with
  | some e => throw (.phrase ⟨e, p⟩)
  | none => return ⟨b.1, b.2⟩

theorem periodOf_eq (p : Position) (lower upper : Int64) : periodOf p (lower, upper) =
      if upper < lower then throw (.phrase ⟨.boundsReversed lower upper, p⟩)
      else if (Period.size? ⟨lower, upper⟩).isNone then
        throw (.phrase ⟨.boundsTooLarge lower upper, p⟩) else return ⟨lower, upper⟩ := by
  unfold periodOf boundsFault?
  by_cases hreversed : upper < lower
  · simp [hreversed]
  · by_cases hsize : (Period.size? ⟨lower, upper⟩).isNone <;> simp [hreversed, hsize]

theorem period_eq : period = position >>= fun p => bounds >>= periodOf p := by
  unfold period bounds
  simp only [bind_assoc, pure_bind, periodOf_eq]

theorem tidy_period : Tidy period := by
  have hsplit : (liftM period : Phrase Period) = Step.current >>= fun t =>
      (liftM bounds : Phrase (Int64 × Int64)) >>= fun b => liftM (periodOf t.position b) := by
    rw [period_eq]
    funext s
    have hlift : (liftM (bounds >>= periodOf s.input.position) : Phrase Period) = _ :=
      liftM_bind bounds (periodOf s.input.position)
    exact congrFun hlift s
  unfold Tidy
  rw [hsplit]
  refine .examined .bounds tidy_bounds (fun t b e h => ?_) fun t b h => ?_
  · rw [periodOf, h]
    rfl
  · rw [periodOf, h]
    exact .pure _

theorem tidy_type : Tidy type :=
  .bind (tidy_accept _) fun _ => ite
    (.bind (tidy_expect _ _) fun _ => .bind (tidy_separated _ tidy_period tidy_period) fun _ =>
      .bind (tidy_expect _ _) fun _ => .bind (tidy_expect _ _) fun _ =>
        .bind tidy_scalarType fun _ => .pure _)
    (.bind tidy_scalarType fun _ => .pure _)

theorem tidy_constDecl : Tidy constDecl :=
  .bind (tidy_identifier _) fun _ => .bind (tidy_expect _ _) fun _ =>
    .bind tidy_operand fun _ => .bind (tidy_expect _ _) fun _ => .pure _

theorem tidy_varDecl : Tidy varDecl :=
  .bind tidy_position fun _ => .bind (tidy_names _) fun _ => .bind (tidy_expect _ _) fun _ =>
    .bind tidy_type fun _ => .bind (tidy_expect _ _) fun _ => .pure _

theorem tidy_paramGroup : Tidy paramGroup :=
  .bind tidy_position fun _ => .bind (tidy_accept _) fun _ => .bind (tidy_names _) fun _ =>
    .bind (tidy_expect _ _) fun _ => .bind tidy_scalarType fun _ => .pure _

theorem tidy_paramGroups : Tidy paramGroups := by
  have hclose : ∀ groups, Tidy (do
      let _ ← expect (.mark .closeParen) "')' after parameters"
      return groups : Parse (List ParamGroup)) :=
    fun _ => .bind (tidy_expect _ _) fun _ => .pure _
  refine .bind (tidy_accept _) fun _ => ite (.bind tidy_kind fun _ => ite ?_ ?_) (.pure _)
  · exact .bind (Tidy.pure _) fun _ => hclose _
  · exact .bind (tidy_separated _ tidy_paramGroup tidy_paramGroup) fun _ => hclose _

theorem tidy_returnType (isFunction : Bool) : Tidy (returnType isFunction) :=
  ite (.bind (tidy_expect _ _) fun _ => .bind tidy_scalarType fun _ => .pure _) (.pure _)

/-- A heading from its first word on, which stands at `p`. -/
def headingAt (p : Position) (isFunction : Bool) : Parse Heading := do
  let _ ← advance
  let (name, _) ← identifier "subprogram name"
  let groups ← paramGroups
  let returns ← returnType isFunction
  let _ ← expect (.mark .semicolon) "';' after subprogram head"
  return ⟨name, groups, returns, p⟩

theorem tidy_headingAt (p : Position) (isFunction : Bool) : Tidy (headingAt p isFunction) :=
  .bind tidy_advance fun _ => .bind (tidy_identifier _) fun _ => .bind tidy_paramGroups fun _ =>
    .bind (tidy_returnType _) fun _ => .bind (tidy_expect _ _) fun _ => .pure _

theorem tidy_heading : Tidy heading := by
  refine .bind tidy_position fun p => .bind tidy_kind fun k => ?_
  split
  · exact .bind (Tidy.pure true) fun _ => tidy_headingAt p _
  · exact .bind (Tidy.pure false) fun _ => tidy_headingAt p _
  · exact .bind (tidy_expected _) fun _ => tidy_headingAt p _

theorem tidy_assignmentOrCall : Tidy assignmentOrCall := by
  refine .bind (tidy_identifier _) fun _ => .bind tidy_kind fun _ => ?_
  split
  · exact .bind (tidy_indexList tidy_expression) fun _ => .bind (tidy_expect _ _) fun _ =>
      .bind tidy_expression fun _ => .pure _
  · exact .bind tidy_advance fun _ => .bind tidy_expression fun _ => .pure _
  · exact .bind (tidy_argumentList tidy_expression) fun _ => .pure _
  · exact tidy_expected _
  · exact tidy_expected _
  · exact .pure _

theorem tidy_direction : Tidy direction :=
  .bind tidy_kind fun _ => by
    split
    · exact .bind tidy_advance fun _ => .pure _
    · exact .bind tidy_advance fun _ => .pure _
    · exact tidy_expected _

theorem tidy_programHead : Tidy programHead := by
  have hend : ∀ (name : String) (p : Position) (parameters : List String), Tidy (do
      let _ ← expect (.mark .semicolon) "';' after program head"
      return (name, parameters, p) : Parse (String × List String × Position)) :=
    fun _ _ _ => .bind (tidy_expect _ _) fun _ => .pure _
  refine .bind tidy_position fun p => .bind (tidy_expect _ _) fun _ =>
    .bind (tidy_identifier _) fun _ => .bind (tidy_accept _) fun _ => ite ?_ ?_
  · exact .bind (tidy_names _) fun _ => .bind (tidy_expect _ _) fun _ => hend _ _ _
  · exact hend _ _ _

end Parse

namespace Recover

open Tidy

variable {α : Type}

theorem tidy_get {f : Session → Recover α} (g : Token → Nat → Bool → Recover α)
    (hg : ∀ s, f s = g s.input.current s.input.tokens.length s.input.beginsStatement)
    (h : ∀ t n b, Tidy (g t n b)) : Tidy (get >>= f : Recover α) := by
  have hf : f = fun s => g s.input.current s.input.tokens.length s.input.beginsStatement :=
    funext hg
  subst hf
  exact Orderly.bind .current fun t => .bind .count fun n => .bind .begins fun b => h t n b

theorem tidy_kind : Tidy kind :=
  tidy_get (fun t _ _ => pure t.kind) (fun _ => rfl) fun _ _ _ => .pure _

theorem tidy_position : Tidy position :=
  tidy_get (fun t _ _ => pure t.position) (fun _ => rfl) fun _ _ _ => .pure _

theorem tidy_advance : Tidy advance := Orderly.advance

theorem tidy_recordExpected (what : String) : Tidy (recordExpected what) := by
  have hsplit : (liftM (recordExpected what) : Phrase Unit) =
      refuse >>= fun _ => Step.current >>= fun t =>
        Step.note (.fault ⟨.expected what t, t.position⟩) := by
    funext s
    change (liftM (record (s.input.unexpected what)) : Phrase Unit) s = _
    rw [refuse_bind]
    unfold Input.unexpected
    split <;> rfl
  unfold Tidy
  rw [hsplit]
  exact .bind .refuse fun _ => .noteHere what

theorem tidy_resume : Tidy resume := by
  have hsplit : (liftM resume : Phrase Unit) =
      refuse >>= fun _ => Step.current >>= fun t => Step.note (.resumed t.position) := by
    funext s
    change (liftM (if s.input.kind = .invalid then throw (.ofToken s.input.current)
      else note (.resumed s.input.position) : Recover Unit) : Phrase Unit) s = _
    rw [refuse_bind]
    split <;> rfl
  unfold Tidy
  rw [hsplit]
  exact .bind .refuse fun _ => .bind .current fun t => .resumed _

/-- What goes on after a part that gave up records its fault first. -/
theorem tidy_attempt {β : Type} {p : Phrase α} {f : Except Fault α → Recover β}
    (g : SyntaxError → Recover β) (hp : Tidy p) (hok : ∀ a, Tidy (f (.ok a)))
    (hphrase : ∀ e, f (.error (.phrase e)) = note (.fault e) >>= fun _ => g e)
    (hg : ∀ e, Tidy (g e)) (hlexical : ∀ e s, f (.error (.lexical e)) s = .error e s) :
    Tidy (attempt p >>= f) := by
  have hlift : (liftM (attempt p) : Phrase (Except Fault α)) = Step.attempt p := by
    funext s
    change (monadLift (attempt p) : Phrase (Except Fault α)) s = _
    rw [Recover.lift_apply, attempt, Step.attempt]
    cases p s <;> rfl
  unfold Tidy
  rw [liftM_bind, hlift]
  refine .attempt hp hok (fun e => ?_) hg fun e s => ?_
  · rw [hphrase, liftM_bind]
    rfl
  change (monadLift (f (.error (.lexical e))) : Phrase β) s = _
  rw [Recover.lift_apply, hlexical]

theorem tidy_accept (k : Token.Kind) : Tidy (accept k) :=
  .bind tidy_kind fun _ => ite (.bind tidy_advance fun _ => .pure _) (.pure _)

theorem tidy_demand (k : Token.Kind) (what : String) : Tidy (demand k what) :=
  .bind (tidy_accept k) fun _ =>
    ite (.pure _) (.bind (tidy_recordExpected what) fun _ => .pure _)

theorem advances_demand (k : Token.Kind) (what : String) : Advances (demand k what) :=
  advances (tidy_demand k what)

theorem tidy_skipTo (stops : List Token.Kind) : Tidy (skipTo stops) :=
  Orderly.bind (.skip stops) fun _ => tidy_resume

theorem tidy_orSkip {p : Phrase α} (hp : Tidy p) (stops : List Token.Kind) :
    Tidy (orSkip p stops) := by
  refine tidy_attempt _ hp (fun _ => .pure _) (fun _ => rfl) (fun _ => ?_) fun _ _ => rfl
  exact .bind (tidy_skipTo stops) fun _ => .bind (tidy_accept _) fun _ => .pure _

theorem tidy_declarations {decl : Parse α} (h : Tidy decl) (stops : List Token.Kind) :
    ∀ n, Tidy (declarations decl stops n)
  | 0 => .pure _
  | n + 1 => by
    have ih := tidy_declarations h stops n
    refine .bind tidy_kind fun _ => ite (.bind (tidy_orSkip h stops) fun d => ?_) (.pure _)
    split
    · exact .bind ih fun _ => .pure _
    · exact ih

theorem tidy_declarationsAfter (keyword : Keyword) {decl : Parse α} (h : Tidy decl)
    (stops : List Token.Kind) : Tidy (declarationsAfter keyword decl stops) := by
  have hrest : Tidy (do declarations decl stops (← get).input.tokens.length : Recover _) :=
    tidy_get (fun _ n _ => declarations decl stops n) (fun _ => rfl)
      fun _ n _ => tidy_declarations h stops n
  exact .bind (tidy_accept _) fun _ => ite (.bind tidy_kind fun _ =>
    ite (.bind (tidy_recordExpected _) fun _ => hrest) hrest) (.pure _)

theorem tidy_constSection : Tidy constSection :=
  tidy_declarationsAfter _ Parse.tidy_constDecl _

theorem tidy_varSection : Tidy varSection :=
  tidy_declarationsAfter _ Parse.tidy_varDecl _

theorem advances_constSection : Advances constSection := advances tidy_constSection

theorem advances_varSection : Advances varSection := advances tidy_varSection

theorem tidy_skipStatementWithin : ∀ n, Tidy (skipStatementWithin n)
  | 0 => .pure _
  | n + 1 => .bind (tidy_skipTo _) fun _ => tidy_get
      (fun t _ b => if t.kind = .mark .semicolon then advance
        else if t.kind = .identifier ∧ ¬ b then do
          advance
          skipStatementWithin n
        else pure ())
      (fun _ => rfl) fun _ _ _ => ite tidy_advance
        (ite (.bind tidy_advance fun _ => tidy_skipStatementWithin n) (.pure _))

theorem tidy_skipStatement : Tidy skipStatement :=
  tidy_get (fun _ n _ => skipStatementWithin (n + 1)) (fun _ => rfl)
    fun _ _ _ => tidy_skipStatementWithin _

theorem advances_skipStatement : Advances skipStatement := advances tidy_skipStatement

theorem tidy_afterStatement : Tidy afterStatement :=
  .bind (tidy_accept _) fun _ => ite (.pure _) (tidy_get
    (fun t _ b => if t.kind = .keyword .endKw ∨ t.kind = .endOfText then pure ()
      else do
        recordExpected "';' after statement"
        if !b then skipStatement)
    (fun _ => rfl) fun _ _ _ => ite (.pure _)
      (.bind (tidy_recordExpected _) fun _ => ite tidy_skipStatement (.pure _)))

theorem advances_afterStatement : Advances afterStatement := advances tidy_afterStatement

/-- What follows a statement that could not be read, after its fault was noted. -/
def pastFault (before : Nat) : Recover Unit := do
  skipStatement
  let i := (← get).input
  if i.tokens.length = before ∧ i.kind ≠ .keyword .endKw then advance

theorem tidy_pastFault (before : Nat) : Tidy (pastFault before) :=
  .bind tidy_skipStatement fun _ => tidy_get
    (fun t n _ => if n = before ∧ t.kind ≠ .keyword .endKw then advance else pure ())
    (fun _ => rfl) fun _ _ _ => ite tidy_advance (.pure _)

theorem advances_afterFault (e : Fault) (before : Nat) : Advances (afterFault e before) :=
  .bind (advances_record e) fun _ => advances (tidy_pastFault before)

/-- How a list of statements goes on after its next one. -/
def afterAttempt (statement : Phrase Statement) (n before : Nat) :
    Except Fault Statement → Recover (List Statement)
  | .ok s => do
    afterStatement
    return s :: (← statementsWithin statement n)
  | .error e => do
    afterFault e before
    statementsWithin statement n

theorem tidy_statementsWithin {statement : Phrase Statement} (h : Tidy statement) :
    ∀ n, Tidy (statementsWithin statement n)
  | 0 => .pure _
  | n + 1 => by
    have ih := tidy_statementsWithin h n
    refine .bind tidy_kind fun _ => ?_
    split
    · exact .pure _
    · exact .pure _
    · exact .bind tidy_advance fun _ => ih
    · refine tidy_get (fun _ before _ => attempt statement >>= afterAttempt statement n before)
        (fun _ => rfl) fun _ before _ => ?_
      refine tidy_attempt (fun _ => pastFault before >>= fun _ => statementsWithin statement n) h
        (fun _ => ?_) (fun e => ?_) (fun _ => ?_) fun _ _ => rfl
      · exact .bind tidy_afterStatement fun _ => .bind ih fun _ => .pure _
      · exact bind_assoc (note (.fault e)) (fun _ => pastFault before) fun _ =>
          statementsWithin statement n
      · exact .bind (tidy_pastFault before) fun _ => ih

theorem tidy_statements {statement : Phrase Statement} (h : Tidy statement) :
    Tidy (statements statement) :=
  tidy_get (fun _ n _ => statementsWithin statement (n + 1)) (fun _ => rfl)
    fun _ _ _ => tidy_statementsWithin h _

end Recover

namespace Phrase

open Tidy

theorem tidy_kind : Tidy kind := Orderly.bind .current fun t => .pure t.kind

theorem tidy_position : Tidy position := Orderly.bind .current fun t => .pure t.position

theorem tidy_lift {m : Type → Type} [MonadLiftT m Phrase] {α : Type} {x : m α} (h : Tidy x) :
    Tidy (liftM x : Phrase α) := h

theorem tidy_statementWithin : ∀ n, Tidy (statementWithin n)
  | 0 => tidy_lift (Parse.tidy_expected _)
  | n + 1 => by
    have ih := tidy_statementWithin n
    have hexpr := tidy_lift Parse.tidy_expression
    have hword := tidy_lift Parse.tidy_advance
    have hexpect : ∀ k what, Tidy (liftM (Parse.expect k what) : Phrase Token) :=
      fun k what => tidy_lift (Parse.tidy_expect k what)
    refine .bind tidy_position fun p => .bind tidy_kind fun k => ?_
    split
    · exact tidy_lift Parse.tidy_assignmentOrCall
    · exact .bind hword fun _ => .bind (tidy_lift (Recover.tidy_statements ih)) fun _ =>
        .bind (hexpect _ _) fun _ => .pure _
    · refine .bind hword fun _ => .bind hexpr fun _ => .bind (hexpect _ _) fun _ =>
        .bind ih fun _ => .bind (tidy_lift (Parse.tidy_accept _)) fun _ => ite ?_ (.pure _)
      exact .bind ih fun _ => .pure _
    · exact .bind hword fun _ => .bind (tidy_lift (Parse.tidy_identifier _)) fun _ =>
        .bind (hexpect _ _) fun _ => .bind hexpr fun _ =>
          .bind (tidy_lift Parse.tidy_direction) fun _ => .bind hexpr fun _ =>
            .bind (hexpect _ _) fun _ => .bind ih fun _ => .pure _
    · exact .bind hword fun _ => .bind hexpr fun _ => .bind (hexpect _ _) fun _ =>
        .bind ih fun _ => .pure _
    · exact .bind hword fun _ => .pure _
    · exact .pure _
    · exact .pure _
    · exact .pure _
    · exact tidy_lift (Parse.tidy_expected _)

theorem advances_statementWithin (n : Nat) : Advances (statementWithin n) :=
  advances (tidy_statementWithin n)

theorem tidy_statement : Tidy statement :=
  Orderly.bind .count fun _ => tidy_statementWithin _

theorem advances_statement : Advances statement := advances tidy_statement

theorem built_statement : Built statement := tidy_statement.made

end Phrase

namespace Recover

open Tidy

theorem tidy_block : Tidy block :=
  .bind tidy_position fun _ => .bind (tidy_demand _ _) fun _ =>
    .bind (tidy_statements Phrase.tidy_statement) fun _ => .bind (tidy_demand _ _) fun _ =>
      .pure _

theorem advances_block : Advances block := advances tidy_block

theorem tidy_subprogramBody : Tidy subprogramBody :=
  .bind tidy_constSection fun _ => .bind tidy_varSection fun _ => .bind tidy_block fun _ =>
    .pure _

theorem tidy_subprogram : Tidy subprogram :=
  .bind (tidy_orSkip Parse.tidy_heading _) fun _ => .bind tidy_subprogramBody fun _ =>
    .bind (tidy_demand _ _) fun _ => .pure _

theorem tidy_subprogramsWithin : ∀ n, Tidy (subprogramsWithin n)
  | 0 => .pure _
  | n + 1 => by
    have ih := tidy_subprogramsWithin n
    refine .bind tidy_kind fun _ => ?_
    split
    case h_3 => exact .pure _
    all_goals
      refine .bind tidy_subprogram fun s => ?_
      split
      · exact .bind ih fun _ => .pure _
      · exact ih

theorem advances_subprogramsWithin (n : Nat) : Advances (subprogramsWithin n) :=
  advances (tidy_subprogramsWithin n)

theorem tidy_programHead : Tidy programHead := by
  -- The place of the head is the same before and after the fault is noted.
  refine tidy_attempt (fun _ => do
    let p ← position
    skipTo [.mark .semicolon, .keyword .constKw, .keyword .varKw, .keyword .procedureKw,
      .keyword .functionKw, .keyword .beginKw]
    let _ ← accept (.mark .semicolon)
    return ("", [], p)) Parse.tidy_programHead (fun _ => .pure _) (fun _ => ?_) (fun _ => ?_)
    fun _ _ => rfl
  · funext s
    rfl
  · exact .bind tidy_position fun _ => .bind (tidy_skipTo _) fun _ => .bind (tidy_accept _) fun _ =>
      .pure _

end Recover

end MiniPascal

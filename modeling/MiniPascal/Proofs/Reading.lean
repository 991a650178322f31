import MiniPascal.Grammar.Program
import Mathlib.Order.Defs.PartialOrder

/-!
# Readers only get on

A reader takes tokens from the front, and what it notes stays noted, whether it succeeds, fails or
recovers.
-/

namespace MiniPascal

open List

/-- What is left of an input: some last part of its tokens, before the same end. -/
instance : Preorder Input where
  le i j := i.tokens <:+ j.tokens ∧ i.last = j.last
  le_refl i := ⟨suffix_rfl, rfl⟩
  le_trans _ _ _ h h' := ⟨h.1.trans h'.1, h.2.trans h'.2⟩

/-- A session goes on with what is left of its input and adds to its notes. -/
instance : Preorder Session where
  le s u := s.input ≤ u.input ∧ u.notes <+: s.notes
  le_refl s := ⟨le_refl s.input, prefix_rfl⟩
  le_trans _ _ _ h h' := ⟨le_trans h.1 h'.1, h'.2.trans h.2⟩

variable {α : Type}

theorem bind_eq_ok {ε σ β : Type} {x : EStateM ε σ α} {f : α → EStateM ε σ β} {s s'' : σ} {b : β}
    (h : (x >>= f) s = .ok b s'') : ∃ a s', x s = .ok a s' ∧ f a s' = .ok b s'' := by
  change EStateM.bind x f s = .ok b s'' at h
  unfold EStateM.bind at h
  split at h
  · next a s' hx => exact ⟨a, s', hx, h⟩
  · cases h

/-- A reader that only gets on, whatever its outcome. -/
def Advances {ε σ α : Type} [Preorder σ] (x : EStateM ε σ α) : Prop :=
  ∀ s, match x s with
    | .ok _ s' => s' ≤ s
    | .error _ s' => s' ≤ s

namespace Advances

variable {ε σ α β : Type} [Preorder σ] {x : EStateM ε σ α}

theorem of_ok (hx : Advances x) {s s' : σ} {a : α} (h : x s = .ok a s') : s' ≤ s := by
  have hs := hx s
  rw [h] at hs
  exact hs

theorem pure (a : α) : Advances (pure a : EStateM ε σ α) := fun s => le_refl s

theorem throw (e : ε) : Advances (throw e : EStateM ε σ α) := fun s => le_refl s

theorem get : Advances (get : EStateM ε σ σ) := fun s => le_refl s

theorem bind {f : α → EStateM ε σ β} (hx : Advances x) (hf : ∀ a, Advances (f a)) :
    Advances (x >>= f) := by
  intro s
  have hs := hx s
  change match EStateM.bind x f s with
    | .ok _ s' => s' ≤ s
    | .error _ s' => s' ≤ s
  unfold EStateM.bind
  cases hxs : x s with
  | error e s' =>
    rw [hxs] at hs
    exact hs
  | ok a s' =>
    rw [hxs] at hs
    have hfs := hf a s'
    dsimp only
    cases hfa : f a s' <;> rw [hfa] at hfs <;> exact le_trans hfs hs

theorem map (hx : Advances x) (f : α → β) : Advances (f <$> x) := by
  intro s
  have hs := hx s
  change match EStateM.map f x s with
    | .ok _ s' => s' ≤ s
    | .error _ s' => s' ≤ s
  unfold EStateM.map
  cases hxs : x s <;> rw [hxs] at hs <;> exact hs

theorem ite {c : Prop} [Decidable c] {y : EStateM ε σ α} (hx : Advances x) (hy : Advances y) :
    Advances (if c then x else y) := by
  split
  · exact hx
  · exact hy

end Advances

namespace Parse

open Advances

theorem advances_kind : Advances kind := .bind get fun _ => .pure _

theorem advances_advance : Advances advance := fun i => ⟨tail_suffix i.tokens, rfl⟩

theorem advances_expected {α : Type} (what : String) : Advances (expected what : Parse α) :=
  .bind get fun _ => .throw _

theorem advances_accept (k : Token.Kind) : Advances (accept k) :=
  .bind advances_kind fun _ => ite (.bind advances_advance fun _ => .pure _) (.pure _)

theorem advances_expect (k : Token.Kind) (what : String) : Advances (expect k what) :=
  .bind advances_kind fun _ => ite advances_advance (advances_expected what)

theorem advances_more {α : Type} (separator : Token.Kind) {item : Parse α} (h : Advances item) :
    ∀ n, Advances (more separator item n)
  | 0 => .pure _
  | n + 1 => .bind (advances_accept separator) fun _ =>
    ite (.bind h fun _ => .bind (advances_more separator h n) fun _ => .pure _) (.pure _)

section Tiers

variable {operand : Parse Expr} (h : Advances operand)
include h

theorem advances_chain (tier : Nat) : ∀ n left, Advances (chain tier operand n left)
  | 0, _ => .pure _
  | n + 1, left => .bind advances_kind fun k => by
    split
    · exact .pure _
    · exact ite (.bind advances_advance fun _ => .bind h fun _ => advances_chain tier n _) (.pure _)

theorem advances_tier (tier : Nat) : Advances (Parse.tier tier operand) :=
  .bind h fun _ => .bind get fun _ => advances_chain h tier _ _

end Tiers

end Parse

theorem Parse.lift_apply (x : Parse α) (s : Session) : (monadLift x : Phrase α) s =
    match x s.input with
    | .ok a i => .ok a { s with input := i }
    | .error e i => .error e { s with input := i } := rfl

theorem Recover.lift_apply (x : Recover α) (s : Session) : (monadLift x : Phrase α) s =
    match x s with
    | .ok a s' => .ok a s'
    | .error e s' => .error (.lexical e) s' := rfl

theorem Parse.advances_lift {x : Parse α} (hx : Advances x) :
    Advances (monadLift x : Phrase α) := by
  intro s
  have hs := hx s.input
  rw [Parse.lift_apply]
  cases hxs : x s.input <;> rw [hxs] at hs <;> exact ⟨hs, prefix_rfl⟩

namespace Recover

open Advances

theorem advances_kind : Advances kind := .bind get fun _ => .pure _

theorem advances_position : Advances position := .bind get fun _ => .pure _

theorem advances_advance : Advances advance := fun s =>
  ⟨⟨tail_suffix s.input.tokens, rfl⟩, prefix_rfl⟩

theorem advances_note (n : Note) : Advances (note n) := fun s =>
  ⟨le_refl s.input, prefix_append s.notes [n]⟩

theorem advances_record : ∀ e, Advances (record e)
  | .lexical _ => .throw _
  | .phrase _ => advances_note _

theorem advances_recordExpected (what : String) : Advances (recordExpected what) :=
  .bind get fun _ => advances_record _

theorem advances_attempt {α : Type} {p : Phrase α} (hp : Advances p) : Advances (attempt p) := by
  intro s
  have hs := hp s
  unfold attempt
  cases hps : p s <;> rw [hps] at hs <;> exact hs

theorem advances_accept (k : Token.Kind) : Advances (accept k) :=
  .bind advances_kind fun _ => ite (.bind advances_advance fun _ => .pure _) (.pure _)

theorem advances_resume : Advances resume :=
  .bind get fun _ => ite (.throw _) (advances_note _)

theorem advances_skipTo (stops : List Token.Kind) : Advances (skipTo stops) := by
  refine .bind (fun s => ?_) fun _ => advances_resume
  exact ⟨⟨dropWhile_suffix _, rfl⟩, prefix_rfl⟩

end Recover

end MiniPascal

import MiniPascal.Check

/-!
# Checking without problems

A check whose list of problems is empty is written `x = pure a`. A sequence of steps is one exactly
when each step is.
-/

namespace MiniPascal

namespace Checked

variable {α β : Type} {x : Checked α}

theorem bind_eq_pure {f : α → Checked β} {b : β} :
    x >>= f = pure b ↔ ∃ a, x = pure a ∧ f a = pure b := by
  obtain ⟨a, es⟩ := x
  constructor
  · intro h
    have hv : (f a).value = b := congrArg value h
    have he : es ++ (f a).errors = [] := congrArg errors h
    obtain ⟨rfl, hf⟩ := List.append_eq_nil_iff.mp he
    refine ⟨a, rfl, ?_⟩
    calc f a = ⟨(f a).value, (f a).errors⟩ := rfl
      _ = pure b := by rw [hv, hf]; rfl
  · rintro ⟨a', h, hf⟩
    cases h
    change (⟨(f a).value, [] ++ (f a).errors⟩ : Checked β) = _
    rw [hf]
    rfl

theorem bind₂_eq_pure {γ : Type} {y : α → Checked β} {f : α → β → Checked γ} {c : γ} :
    (x >>= fun a => y a >>= f a) = pure c ↔
      ∃ a, x = pure a ∧ ∃ b, y a = pure b ∧ f a b = pure c := by
  simp only [bind_eq_pure]

theorem eq_pure_of_errors (h : x.errors = []) : x = pure x.value := by
  obtain ⟨a, es⟩ := x
  cases h
  rfl

@[simp] theorem pure_value (a : α) : (pure a : Checked α).value = a := rfl

@[simp] theorem pure_errors (a : α) : (pure a : Checked α).errors = [] := rfl

@[simp] theorem pure_inj {a b : α} : (pure a : Checked α) = pure b ↔ a = b :=
  ⟨fun h => congrArg value h, fun h => h ▸ rfl⟩

@[simp] theorem pure_bind' (a : α) (f : α → Checked β) : pure a >>= f = f a := rfl

@[simp] theorem complain_ne_pure (problem : Problem) (p : Position) (u : Unit) :
    ¬ complain problem p = pure u :=
  fun h => List.cons_ne_nil _ _ (congrArg errors h)

end Checked

namespace Ty

/-- The types that values have. -/
structure Proper (t : Ty) : Prop where
  dims : t.dims = []
  not_void : t.base ≠ .void
  not_error : t.base ≠ .error

theorem Proper.int : Ty.int.Proper := ⟨rfl, nofun, nofun⟩

variable {t : Ty}

theorem Proper.eq (h : t.Proper) : t = ⟨t.base, []⟩ := by
  obtain ⟨base, dims⟩ := t
  rw [show dims = [] from h.dims]

theorem Proper.isError {t : Ty} (h : t.Proper) : t.isError = false := by
  simpa [Ty.isError] using h.not_error

theorem isA_iff {b : Base} : t.isA b = true ↔ t = ⟨b, []⟩ := by
  obtain ⟨base, dims⟩ := t
  simp only [isA, isScalar, Bool.and_eq_true, List.isEmpty_iff, beq_iff_eq, Ty.mk.injEq]
  exact and_comm

theorem indexed?_eq_some {r : Ty} {n : Nat} :
    t.indexed? n = some r ↔ n ≤ t.dims.length ∧ ⟨t.base, t.dims.drop n⟩ = r := by
  simp only [indexed?, Option.ite_none_right_eq_some, Option.some.injEq]

theorem join_proper {a b : Ty} (h : (join a b).isError = false) : a.Proper ∧ b.Proper := by
  obtain ⟨a, as⟩ := a
  obtain ⟨b, bs⟩ := b
  unfold join at h
  split at h
  · next hs =>
    simp only [isScalar, Bool.and_eq_true, List.isEmpty_iff] at hs
    obtain ⟨rfl, rfl⟩ := hs
    cases a <;> cases b <;>
      first | (cases h; done) | exact ⟨⟨rfl, nofun, nofun⟩, ⟨rfl, nofun, nofun⟩⟩
  · cases h

theorem isNumeric_iff : t.isNumeric = true ↔ t = .int ∨ t = .real := by
  obtain ⟨base, dims⟩ := t
  cases base <;> simp [isNumeric, isScalar, int, real, and_comm]

theorem Proper.of_isNumeric (h : t.isNumeric) : t.Proper := by
  rcases isNumeric_iff.mp h with rfl | rfl <;> exact ⟨rfl, nofun, nofun⟩

theorem join_isNumeric {a b : Ty} (h : (join a b).isNumeric) : a.isNumeric ∧ b.isNumeric := by
  obtain ⟨ha, hb⟩ := join_proper (Proper.of_isNumeric h).isError
  rw [ha.eq, hb.eq] at h ⊢
  generalize a.base = x at h ⊢
  generalize b.base = y at h ⊢
  cases x <;> cases y <;> first | (cases h; done) | exact ⟨rfl, rfl⟩

theorem binary?_proper {op : BinaryOp} {a b c : Ty} (h : binary? op a b = some c) :
    a.Proper ∧ b.Proper ∧ c.Proper := by
  cases op with
  | add | sub | mul =>
    simp only [binary?, Option.ite_none_right_eq_some, Option.some.injEq] at h
    obtain ⟨hn, rfl⟩ := h
    obtain ⟨ha, hb⟩ := join_isNumeric hn
    exact ⟨.of_isNumeric ha, .of_isNumeric hb, .of_isNumeric hn⟩
  | divide =>
    simp only [binary?, Option.ite_none_right_eq_some, Option.some.injEq] at h
    obtain ⟨hn, rfl⟩ := h
    obtain ⟨ha, hb⟩ := join_isNumeric hn
    exact ⟨.of_isNumeric ha, .of_isNumeric hb, rfl, nofun, nofun⟩
  | div | mod | and | or =>
    simp only [binary?, Option.ite_none_right_eq_some, Option.some.injEq, Bool.and_eq_true,
      isA_iff] at h
    obtain ⟨⟨rfl, rfl⟩, rfl⟩ := h
    exact ⟨⟨rfl, nofun, nofun⟩, ⟨rfl, nofun, nofun⟩, ⟨rfl, nofun, nofun⟩⟩
  | equal | notEqual | less | lessEqual | greater | greaterEqual =>
    simp only [binary?, Option.ite_none_right_eq_some, Option.some.injEq, Bool.and_eq_true,
      Bool.not_eq_true'] at h
    obtain ⟨⟨hj, _⟩, rfl⟩ := h
    obtain ⟨ha, hb⟩ := join_proper hj
    exact ⟨ha, hb, rfl, nofun, nofun⟩

theorem unary?_proper {op : UnaryOp} {a c : Ty} (h : unary? op a = some c) : a.Proper ∧ c = a := by
  cases op with
  | plus | minus =>
    simp only [unary?, Option.ite_none_right_eq_some, Option.some.injEq] at h
    exact ⟨.of_isNumeric h.1, h.2.symm⟩
  | not =>
    simp only [unary?, Option.ite_none_right_eq_some, Option.some.injEq, isA_iff] at h
    obtain ⟨rfl, rfl⟩ := h
    exact ⟨⟨rfl, nofun, nofun⟩, rfl⟩

theorem assignable_proper {target value : Ty} (h : assignable target value) :
    target.Proper ∧ value.Proper := by
  simp only [assignable, Bool.and_eq_true, Bool.not_eq_true', beq_iff_eq] at h
  obtain ⟨⟨⟨_, he⟩, _⟩, hj⟩ := h
  exact join_proper (hj.symm ▸ he)

end Ty

end MiniPascal

import MiniPascal.Proofs.Agreement
import MiniPascal.Proofs.Blocks
import MiniPascal.Proofs.Numbers

/-!
# The values of constants

An initializer is a literal, a number behind a sign, or the name of another constant. Lowering makes
a literal of each, which is right as long as a name still means the same.
-/

namespace MiniPascal

open Scope Analysis Typing
open Run (Datum)

def Run.Store.assign (σ : Store) (item : Item) (d : Datum) : Store :=
  { σ with contents := fun i is => if i = item then d else σ.contents i is }

namespace C

open C.Value (ofDatum)

/-- A literal, or a number behind a minus. -/
def Expr.isLiteral : Expr → Bool
  | .int _ | .real _ | .char _ | .string _
  | .unary .minus (.int _) | .unary .minus (.real _) => true
  | _ => false

structure Expr.Denotes (c : Expr) (d : Datum) : Prop where
  isLiteral : c.isLiteral = true
  eval : ∀ τ, c.eval τ = .ok (ofDatum d)

/-- A constant is a scalar and has a literal of its value on record. -/
def Constants.Records (known : Constants) (σ : Run.Store) (item : Item) : Prop :=
  item.type.dims = [] ∧
    ∃ c, known.lookup item.position = some c ∧ c.Denotes (σ.contents item [])

/-- Every constant that is visible from a block is on record. -/
def Recorded (known : Constants) (σ : Run.Store) (t : Table) (block : Nat) : Prop :=
  ∀ item, t.Visible block item → item.kind = .const → known.Records σ item

section

variable {env : Env} {known : Constants} {σ : Run.Store} {t : Table} {block : Nat}
  {e : MiniPascal.Expr} {op : MiniPascal.UnaryOp}

theorem constantValue_eq (h : ∀ p n, e ≠ .name p n) :
    constantValue env known e = lowerExpr env e := by
  unfold constantValue
  split
  · next p n => exact (h p n rfl).elim
  · rfl

theorem constantValue_cases {c : Expr} (h : constantValue env known e = .ok c) :
    (∃ p n item, e = .name p n ∧ env.table.resolve env.block n = .ok item ∧ item.kind = .const ∧
      known.lookup item.position = some c) ∨ lowerExpr env e = .ok c := by
  unfold constantValue at h
  split at h
  · next p n =>
    split at h
    · next item hn =>
      split at h
      · next hk =>
        split at h
        · next hlookup =>
          cases h
          exact .inl ⟨p, n, item, rfl, hn, hk, hlookup⟩
        · cases h
      · exact .inr h
    · exact .inr h
  · exact .inr h

theorem literal_denotes (v : MiniPascal.Value) : (Expr.literal v).Denotes (.scalar v) :=
  ⟨by cases v <;> rfl, fun τ => Expr.eval_literal τ v⟩

theorem lowerExpr_literal (p : Position) (v : MiniPascal.Value) :
    lowerExpr env (v.toExpr p) = .ok (Expr.literal v) := by
  have hfold : (v.toExpr p).fold.1 = v.toExpr p := by cases v <;> rfl
  rw [lowerExpr, Env.prepared, hfold, ite_self, convert_toExpr]

/-- A number behind a sign is a number where constants are folded, and else may keep a minus. -/
theorem lowerExpr_signed (hop : op ≠ .not) {a v : MiniPascal.Value}
    (h : MiniPascal.Value.unary? op a = some v) (p q : Position) :
    ∃ c, lowerExpr env (.unary p op (a.toExpr q)) = .ok c ∧ c.Denotes (.scalar v) := by
  rw [lowerExpr, Env.prepared]
  cases env.folding with
  | true =>
    rw [if_pos rfl, MiniPascal.Expr.fold_unary_literal h, convert_toExpr]
    exact ⟨_, rfl, literal_denotes v⟩
  | false =>
    rw [if_neg Bool.false_ne_true, convert_unary, convert_toExpr]
    refine ⟨_, rfl, ?_, fun τ => ?_⟩
    · cases op <;> cases a <;> first | rfl | (cases h; done) | exact (hop rfl).elim
    · rw [((Expr.Agrees.literal a).unary_literal h).value, Expr.eval_literal]
      rfl

/-- What lowering makes of an initializer: a literal of its value, of the same type. -/
structure Lowers (env : Env) (known : Constants) (t : Table) (block : Nat) (σ : Run.Store)
    (e : MiniPascal.Expr) (T : MiniPascal.Ty) : Prop where
  dims : T.dims = []
  type : env.typeOf e = T
  value : ∃ c v, constantValue env known e = .ok c ∧ Run.eval t block σ e = .ok v ∧ c.Denotes v

theorem literal_lowers (p : Position) (v : MiniPascal.Value) :
    Lowers env known t block σ (v.toExpr p) v.type where
  dims := by cases v <;> rfl
  type := by rw [Env.typeOf, typeOf_toExpr]; rfl
  value := by
    rw [constantValue_eq (by cases v <;> simp [MiniPascal.Value.toExpr]), lowerExpr_literal]
    exact ⟨_, .scalar v, rfl, by cases v <;> rfl, literal_denotes v⟩

theorem string_lowers (p : Position) (s : String) :
    Lowers env known t block σ (.string p s) .string where
  dims := rfl
  type := rfl
  value := by
    rw [constantValue_eq (by simp), lowerExpr, Env.prepared, MiniPascal.Expr.fold,
      ite_self]
    exact ⟨_, .string s, rfl, rfl, rfl, fun _ => rfl⟩

theorem signed_lowers (hop : op ≠ .not) {a v : MiniPascal.Value}
    (h : MiniPascal.Value.unary? op a = some v) (p q : Position) :
    Lowers env known t block σ (.unary p op (a.toExpr q)) v.type where
  dims := by cases v <;> rfl
  type := by
    rw [Env.typeOf, Typing.typeOf, typeOf_toExpr]
    exact congrArg Checked.value
      (unary_of_type (MiniPascal.Value.type_isError a) (MiniPascal.Value.unary?_type h) p)
  value := by
    obtain ⟨c, hc, hcv⟩ := lowerExpr_signed hop h p q
    refine ⟨c, .scalar v, (constantValue_eq (by simp)).trans hc, ?_, hcv⟩
    rw [Run.eval]
    have hoperand : Run.eval t block σ (a.toExpr q) = .ok (.scalar a) := by cases a <;> rfl
    rw [hoperand]
    change Datum.scalar <$> Run.unaryValue op a = _
    rw [Run.unaryValue_of_unary? h]
    rfl

theorem name_lowers (recorded : Recorded known σ t block) {n : String} {item : Item}
    (hn : t.resolve block n = .ok item) (hk : item.kind = .const)
    (hsame : env.table.resolve env.block n = .ok item) (p : Position) :
    Lowers env known t block σ (.name p n) item.type := by
  obtain ⟨hdims, c, hc, hcv⟩ := recorded item (Table.resolve_visible hn) hk
  refine ⟨hdims, ?_, c, σ.contents item [], ?_, ?_, hcv⟩
  · rw [Env.typeOf, Typing.typeOf, hsame]
    rfl
  · rw [constantValue, hsame]
    simp only [hk, if_true, hc]
  · rw [Run.eval, Run.named, hn]
    have hlocated : Run.located item [] = .ok ⟨item, []⟩ := by
      rw [Run.located, hdims]
      rfl
    change (if item.kind = .routine then _ else _) = _
    rw [hk, if_neg (by decide), hlocated]
    exact if_pos (congrArg List.length hdims).symm

/-- The initializer of a constant has a value, and lowering finds a literal of it, if a name in it
still means the same. -/
theorem initializer_lowers {T : MiniPascal.Ty} (recorded : Recorded known σ t block)
    (hconst : isConstant t block e = true) (hT : Typing.typeOf t block e = pure T)
    (hunsigned : e.Unsigned)
    (hsame : ∀ p n item, e = .name p n → t.resolve block n = .ok item → item.kind = .const →
      env.table.resolve env.block n = .ok item) : Lowers env known t block σ e T := by
  -- Integers and reals behind a sign differ only in why the operation has a result.
  have hsigned : ∀ {p q op} (a : MiniPascal.Value) {v}, e = .unary p op (a.toExpr q) → op ≠ .not →
      MiniPascal.Value.unary? op a = some v → Lowers env known t block σ e T := by
    rintro p q op a v rfl hop hv
    have htype : Typing.typeOf t block (.unary p op (a.toExpr q)) = pure v.type := by
      rw [Typing.typeOf, typeOf_toExpr]
      exact unary_of_type (MiniPascal.Value.type_isError a) (MiniPascal.Value.unary?_type hv) p
    rw [htype] at hT
    exact Checked.pure_inj.mp hT ▸ signed_lowers hop hv p q
  cases e with
  | int p v => exact Checked.pure_inj.mp hT ▸ literal_lowers p (.int v)
  | real p v => exact Checked.pure_inj.mp hT ▸ literal_lowers p (.real v)
  | char p v => exact Checked.pure_inj.mp hT ▸ literal_lowers p (.char v)
  | bool p v => exact Checked.pure_inj.mp hT ▸ literal_lowers p (.bool v)
  | string p v => exact Checked.pure_inj.mp hT ▸ string_lowers p v
  | name p n =>
    rw [isConstant] at hconst
    rw [Typing.typeOf] at hT
    cases hn : t.resolve block n with
    | error f => rw [hn] at hconst; cases hconst
    | ok item =>
      rw [hn] at hconst hT
      have hk := beq_iff_eq.mp hconst
      exact Checked.pure_inj.mp hT ▸ name_lowers recorded hn hk (hsame p n item rfl hn hk) p
  | unary p op x =>
    cases op with
    | not => cases hconst
    | plus =>
      cases x with
      | int q v => exact hsigned (.int v) rfl (by decide) rfl
      | real q v => exact hsigned (.real v) rfl (by decide) rfl
      | char | bool | string | name | element | call | binary | unary => cases hconst
    | minus =>
      cases x with
      | int q v =>
        obtain ⟨w, hw⟩ := Integer.neg?_of_nonneg hunsigned
        exact hsigned (.int v) rfl (by decide) (congrArg (MiniPascal.Value.int <$> ·) hw)
      | real q v => exact hsigned (.real v) rfl (by decide) rfl
      | char | bool | string | name | element | call | binary | unary => cases hconst
  | element | call | binary => cases hconst

end

end C

end MiniPascal

import MiniPascal.Proofs.Numbers
import MiniPascal.Proofs.SpelledNames

/-!
# Literals of a source have no sign

Reading a decimal never sets the sign bit. So no literal of a source is negative, be it an integer
or a real.
-/

namespace MiniPascal

open List

/-! ## Reals -/

def ClearSign (x : Float) : Prop := x.toBits < 0x8000000000000000

section Reals

open Float.Model Float.Model.UnpackedFloat

/-- A float without a minus. What is no number has none. -/
def Positive : UnpackedFloat → Prop
  | .infinity s | .zero s | .finite s _ _ _ => s = .positive
  | .notANumber => True

variable {u v : UnpackedFloat}

theorem positive_ite {c : Prop} [Decidable c] (hu : Positive u) (hv : Positive v) :
    Positive (if c then u else v) := by
  split
  · exact hu
  · exact hv

theorem positive_dite {c : Prop} [Decidable c] {u : c → UnpackedFloat} {v : ¬c → UnpackedFloat}
    (hu : ∀ h, Positive (u h)) (hv : ∀ h, Positive (v h)) : Positive (dite c u v) := by
  split
  · exact hu _
  · exact hv _

theorem toNat_packComponents_lt (e : BitVec 11) (m : BitVec 52) :
    (packComponents .binary64 .positive e m).toNat < 2 ^ 63 := by
  have he := e.isLt
  have hm := m.isLt
  have happend : (packComponents .binary64 .positive e m).toNat = e.toNat <<< 52 ||| m.toNat := by
    rw [packComponents, BitVec.toNat_append, BitVec.toNat_append]
    simp [Sign.toBitVec]
  rw [happend, ← Nat.shiftLeft_add_eq_or_of_lt hm, Nat.shiftLeft_eq]
  omega

theorem toNat_pack_lt (h : Positive u) : (UnpackedFloat.pack .binary64 u).toNat < 2 ^ 63 := by
  cases u with
  | notANumber => exact toNat_packComponents_lt _ _
  | infinity | zero =>
    cases h
    exact toNat_packComponents_lt _ _
  | finite s m e hm =>
    cases h
    unfold UnpackedFloat.pack
    dsimp only
    split
    · exact toNat_packComponents_lt _ _
    · split <;> exact toNat_packComponents_lt _ _

theorem positive_unpack {b : BitVec 64} (h : b.toNat < 2 ^ 63) :
    Positive (UnpackedFloat.unpack .binary64 b) := by
  have hbit : @unpackSign .binary64 b = 0#1 := by
    apply BitVec.eq_of_toNat_eq
    change (BitVec.extractLsb 63 63 b).toNat = 0
    rw [BitVec.extractLsb_toNat]
    omega
  have hsign : Sign.ofBitVec (@unpackSign .binary64 b) = .positive := by
    rw [hbit]
    rfl
  exact positive_ite (positive_ite hsign trivial)
    (positive_ite (positive_dite (fun _ => hsign) fun _ => hsign) hsign)

theorem positive_roundWithAccuracy (spec : Format) (m : Nat) (e : Int) (accuracy : Accuracy) :
    Positive (roundWithAccuracy spec .positive m e accuracy) := by
  exact positive_dite (fun _ => rfl) fun _ => rfl

theorem positive_mul (spec : Format) (hu : Positive u) (hv : Positive v) :
    Positive (mul spec u v) := by
  cases u <;> cases v <;> cases hu <;> cases hv <;>
    first | trivial | rfl | exact positive_roundWithAccuracy _ _ _ _

theorem positive_div (spec : Format) (hu : Positive u) (hv : Positive v) :
    Positive (div spec u v) := by
  cases u <;> cases v <;> cases hu <;> cases hv <;>
    first | trivial | rfl | exact positive_roundWithAccuracy _ _ _ _

theorem positive_ofScientific (spec : Format) (m : Nat) (e : Int) :
    Positive (UnpackedFloat.ofScientific spec m e) := by
  refine positive_dite (fun _ => rfl) fun _ => positive_ite rfl (positive_ite rfl ?_)
  exact positive_ite (positive_mul spec rfl rfl) (positive_div spec rfl rfl)

theorem positive_ofNat (spec : Format) (n : Nat) : Positive (UnpackedFloat.ofNat spec n) := by
  unfold UnpackedFloat.ofNat UnpackedFloat.ofInt UnpackedFloat.normalize
  split
  · next h => exact absurd (Int.compare_eq_lt.mp h) (by omega)
  · rfl
  · exact positive_roundWithAccuracy _ _ _ _

theorem clearSign_pack (h : Positive u) :
    ClearSign (.ofModel (Float.Model.pack u)) := UInt64.lt_iff_toNat_lt.mpr (toNat_pack_lt h)

theorem ClearSign.positive {x : Float} (h : ClearSign x) : Positive x.toModel.unpack :=
  positive_unpack (UInt64.lt_iff_toNat_lt.mp h)

theorem clearSign_ofScientific (m : Nat) (negated : Bool) (e : Nat) :
    ClearSign (Float.ofScientific m negated e) := by
  have hpowers : ∀ x ∈ Float.exactlyRepresentablePowersOfTen, ClearSign x := by
    unfold ClearSign
    decide +kernel
  unfold Float.ofScientific
  split
  · -- digits and power are floats themselves
    have hdigits : ClearSign m.toUInt64.toFloat := clearSign_pack (positive_ofNat _ _)
    have hpower := fun i h => (hpowers _ (Array.getElem_mem (i := i) h)).positive
    split
    · exact clearSign_pack (positive_div _ hdigits.positive (hpower _ _))
    · exact clearSign_pack (positive_mul _ hdigits.positive (hpower _ _))
  · exact clearSign_pack (positive_ofScientific _ _ _)

theorem clearSign_toFloat (d : Decimal) : ClearSign d.toFloat := by
  have hinfinity : ClearSign Decimal.infinity := clearSign_pack (positive_unpack (by decide))
  unfold Decimal.toFloat
  split
  · exact clearSign_ofScientific _ _ _
  split
  · exact hinfinity
  split
  · exact clearSign_ofScientific _ _ _
  split <;> exact clearSign_ofScientific _ _ _

end Reals

/-! ## Tokens -/

/-- If the token is a number, it has no sign. -/
structure Token.Nonnegative (t : Token) : Prop where
  integer : t.Unsigned
  real : ∀ v, t.payload = some (.real v) → ClearSign v

theorem Numeral.value?_clearSign {n : Numeral} {v : Float} (h : n.value? = some (.real v)) :
    ClearSign v := by
  unfold value? at h
  split at h
  · split at h
    · cases h
    · cases h
      exact clearSign_toFloat _
  · obtain ⟨w, _, h⟩ := Option.map_eq_some_iff.mp h
    cases h

theorem Lexeme.read_clearSign {c : Char} {cs : List Char} {v : Float}
    (h : (read c cs).payload = some (.real v)) : ClearSign v := by
  unfold read at h
  split at h
  · unfold readQuoted at h
    dsimp only at h
    split at h <;> cases h
  split at h
  · unfold readNumber at h
    dsimp only at h
    split at h
    · next hvalue =>
      cases h
      exact Numeral.value?_clearSign hvalue
    · next hvalue =>
      cases h
      exact Numeral.value?_clearSign hvalue
    · cases h
  split at h
  · unfold readWord at h
    dsimp only at h
    split at h <;> cases h
  split at h <;> cases h

theorem scan_nonnegative (source : String) : ∀ t ∈ scan source, t.Nonnegative := by
  have hreal : ∀ t ∈ scan source, ∀ v, t.payload = some (.real v) → ClearSign v := by
    unfold scan
    fun_induction scanFrom .start source.toList with
    | case1 | case2 => exact forall_mem_singleton.mpr fun _ h => by cases h
    | case3 => exact forall_mem_singleton.mpr fun v => Lexeme.read_clearSign
    | case4 p cs q c rest _ l t _ ih =>
      exact forall_mem_cons.mpr ⟨fun v => Lexeme.read_clearSign, ih⟩
  exact fun t ht => ⟨scanFrom_unsigned _ _ t ht, hreal t ht⟩

inductive Expr.Nonnegative : Expr → Prop
  | int {p} {v : Int64} : 0 ≤ v.toInt → Nonnegative (.int p v)
  | real {p v} : ClearSign v → Nonnegative (.real p v)
  | char {p v} : Nonnegative (.char p v)
  | bool {p v} : Nonnegative (.bool p v)
  | string {p v} : Nonnegative (.string p v)
  | element {p n es} : (∀ e ∈ es, Nonnegative e) → Nonnegative (.element p n es)
  | name {p n} : Nonnegative (.name p n)
  | call {p n es} : (∀ e ∈ es, Nonnegative e) → Nonnegative (.call p n es)
  | binary {p op left right} : Nonnegative left → Nonnegative right →
      Nonnegative (.binary p op left right)
  | unary {p op e} : Nonnegative e → Nonnegative (.unary p op e)

/-! ## Programs -/

namespace Statement

mutual

def exprs : Statement → List Expr
  | assign _ _ indices value => indices ++ [value]
  | call _ _ arguments => arguments
  | compound _ parts => exprsAll parts
  | branch _ condition onTrue none => condition :: onTrue.exprs
  | branch _ condition onTrue (some onFalse) => condition :: (onTrue.exprs ++ onFalse.exprs)
  | count _ _ first last _ body => first :: last :: body.exprs
  | loop _ condition body => condition :: body.exprs
  | exit _ => []

def exprsAll : List Statement → List Expr
  | [] => []
  | s :: ss => s.exprs ++ exprsAll ss

end

theorem exprsAll_eq (ss : List Statement) : exprsAll ss = ss.flatMap exprs := by
  induction ss with
  | nil => rfl
  | cons s ss ih => rw [exprsAll, ih, flatMap_cons]

end Statement

/-- The values of constants and what the statements evaluate. -/
def Body.exprs (b : Body) : List Expr :=
  b.consts.map ConstDecl.value ++ Statement.exprsAll b.statements

def Program.exprs (p : Program) : List Expr :=
  p.body.exprs ++ p.subprograms.flatMap fun s => s.body.exprs

section Drawn

variable {T : Token → Prop}

theorem Statement.Drawn.exprs {s : Statement} (h : s.Drawn T) : ∀ e ∈ s.exprs, e.Drawn T := by
  induction h with
  | assign _ hes he =>
    exact forall_mem_append.mpr ⟨hes, forall_mem_singleton.mpr he⟩
  | call _ hes => exact hes
  | compound _ _ ih =>
    rw [Statement.exprs, Statement.exprsAll_eq]
    exact forall_mem_flatMap.mpr ih
  | ifThen _ hc _ ih | loop _ hc _ ih => exact forall_mem_cons.mpr ⟨hc, ih⟩
  | ifThenElse _ hc _ _ ih ih' =>
    exact forall_mem_cons.mpr ⟨hc, forall_mem_append.mpr ⟨ih, ih'⟩⟩
  | count _ _ hfirst hlast _ ih =>
    exact forall_mem_cons.mpr ⟨hfirst, forall_mem_cons.mpr ⟨hlast, ih⟩⟩
  | exit => exact forall_mem_nil _

theorem Body.Drawn.exprs {b : Body} (h : b.Drawn T) : ∀ e ∈ b.exprs, e.Drawn T := by
  unfold Body.exprs
  rw [Statement.exprsAll_eq]
  exact forall_mem_append.mpr ⟨forall_mem_map.mpr fun d hd => (h.consts d hd).value,
    forall_mem_flatMap.mpr fun s hs => (h.statements s hs).exprs⟩

theorem Expr.Drawn.nonnegative (hT : ∀ t, T t → t.Nonnegative) {e : Expr} (h : e.Drawn T) :
    e.Nonnegative := by
  induction h with
  | int ht hv => exact .int ((hT _ ht).integer _ hv.2)
  | real ht _ hv => exact .real ((hT _ ht).real _ hv)
  | char => exact .char
  | string => exact .string
  | bool => exact .bool
  | element _ _ _ ih => exact .element ih
  | name => exact .name
  | call _ _ ih => exact .call ih
  | binary _ _ hleft hright => exact .binary hleft hright
  | unary _ _ ih => exact .unary ih

end Drawn

theorem exprs_drawn {source : String} {p : Program} (h : parse (scan source) = .ok (p, [])) :
    ∀ e ∈ p.exprs, e.Drawn (· ∈ scan source) :=
  forall_mem_append.mpr ⟨(parse_drawn h).body.exprs,
    forall_mem_flatMap.mpr fun s hs => ((parse_drawn h).subprograms s hs).body.exprs⟩

theorem nonnegative_of_source {source : String} {p : Program}
    (h : parse (scan source) = .ok (p, [])) : ∀ e ∈ p.exprs, e.Nonnegative :=
  fun e he => (exprs_drawn h e he).nonnegative (scan_nonnegative source)

end MiniPascal

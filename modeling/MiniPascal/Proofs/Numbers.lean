import MiniPascal.Token.Scan
import MiniPascal.Tree.Basic

/-!
# Numbers are read without a sign

A sign is a token of its own, so no number of a source is negative, and a number behind a sign
always has a value.
-/

namespace MiniPascal

variable {v : Int64}

theorem Integer.neg?_of_nonneg (h : 0 ≤ v.toInt) : ∃ w, neg? v = some w := by
  have hv := Int64.toInt_le v
  have hmax : Int64.maxValue.toInt = 2 ^ 63 - 1 := rfl
  have hmin : Int64.minValue.toInt = -2 ^ 63 := rfl
  exact ⟨_, if_pos ⟨by omega, by omega⟩⟩

def Token.Unsigned (t : Token) : Prop := ∀ v, t.payload = some (.integer v) → 0 ≤ v.toInt

theorem Numeral.value?_unsigned {n : Numeral} (h : n.value? = some (.integer v)) : 0 ≤ v.toInt := by
  unfold value? at h
  split at h
  · split at h <;> cases h
  · obtain ⟨w, hw, h⟩ := Option.map_eq_some_iff.mp h
    cases h
    rw [Integer.toInt_of_ofInt? hw]
    exact Int.natCast_nonneg _

theorem Lexeme.read_unsigned {c : Char} {cs : List Char}
    (h : (read c cs).payload = some (.integer v)) : 0 ≤ v.toInt := by
  unfold read at h
  split at h
  · unfold readQuoted at h
    dsimp only at h
    split at h <;> cases h
  split at h
  · unfold readNumber at h
    dsimp only at h
    split at h
    · cases h
    · next hvalue =>
      cases h
      exact Numeral.value?_unsigned hvalue
    · cases h
  split at h
  · unfold readWord at h
    dsimp only at h
    split at h <;> cases h
  split at h <;> cases h

theorem scanFrom_unsigned (p : Position) (cs : List Char) : ∀ t ∈ scanFrom p cs, t.Unsigned := by
  fun_induction scanFrom p cs with
  | case1 | case2 => exact List.forall_mem_singleton.mpr nofun
  | case3 => exact List.forall_mem_singleton.mpr fun v => Lexeme.read_unsigned
  | case4 p cs q c rest _ l t _ ih =>
    exact List.forall_mem_cons.mpr ⟨fun v => Lexeme.read_unsigned, ih⟩

/-- A number, also one behind a sign, is not negative itself. -/
def Expr.Unsigned : Expr → Prop
  | .int _ v => 0 ≤ v.toInt
  | .unary _ _ (.int _ v) => 0 ≤ v.toInt
  | _ => True

end MiniPascal

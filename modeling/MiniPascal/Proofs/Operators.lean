import MiniPascal.C.OfExpr
import MiniPascal.Proofs.CRunning
import MiniPascal.Proofs.Folding

/-!
# Operators

What folding computes is what the operation gives when the program runs, and what the operation gives
is what its form in C gives on the forms of its operands.
-/

namespace MiniPascal

namespace Run

theorem arithmetic_of_arithmetic? {f : Int64 → Int64 → Option Int64} {g : Float → Float → Float}
    {a b v : Value} (h : Value.arithmetic? f g a b = some v) : arithmetic f g a b = .ok v := by
  unfold Value.arithmetic? at h
  split at h
  · obtain ⟨z, hz, rfl⟩ := Option.map_eq_some_iff.mp h
    simp [arithmetic, hz, word]
  · next hne =>
    simp only [Option.bind_eq_bind, Option.bind_eq_some_iff] at h
    obtain ⟨x, hx, y, hy, h⟩ := h
    unfold Value.finite? at h
    split at h
    · cases h
      unfold arithmetic
      split
      · exact (hne _ _ rfl rfl).elim
      · rw [hx, hy]
    · cases h

theorem quotient_of_div? {a b z : Int64} (h : Integer.div? a b = some z) :
    quotient Integer.div? (.int a) (.int b) = .ok (.int z) := by
  have hb : b ≠ 0 := by
    rintro rfl
    simp [Integer.div?] at h
  simp [quotient, hb, h, word]

theorem quotient_of_mod? {a b z : Int64} (h : Integer.mod? a b = some z) :
    quotient Integer.mod? (.int a) (.int b) = .ok (.int z) := by
  have hb : b ≠ 0 := by
    rintro rfl
    simp [Integer.mod?, Integer.div?] at h
  simp [quotient, hb, h, word]

variable {op : BinaryOp} {a b v : Value} {A B T : Ty}

theorem comparison_of_compare? {o : Ordering} (h : Value.compare? a b = some o) :
    comparison op a b = .ok (.bool (Value.holds op o)) := by
  unfold Value.compare? at h
  split at h
  · cases h; rfl
  · cases h; rfl
  · cases h; rfl
  · next hi hc hb =>
    simp only [Option.bind_eq_bind, Option.bind_eq_some_iff] at h
    obtain ⟨x, hx, y, hy, h⟩ := h
    unfold comparison
    split
    · exact (hi _ _ rfl rfl).elim
    · exact (hc _ _ rfl rfl).elim
    · exact (hb _ _ rfl rfl).elim
    · rw [hx, hy]
      simp [realHolds, h]

theorem binaryValue_of_binary? (h : Value.binary? op a b = some v) :
    binaryValue op a b = .ok v := by
  cases op with
  | add | sub | mul => exact arithmetic_of_arithmetic? h
  | divide =>
    simp only [Value.binary?, Value.divide?, Option.bind_eq_bind, Option.bind_eq_some_iff] at h
    obtain ⟨x, hx, y, hy, h⟩ := h
    split at h
    · cases h
    · unfold Value.finite? at h
      split at h
      · cases h
        simp [binaryValue, realQuotient, hx, hy]
      · cases h
  | div | mod =>
    simp only [Value.binary?] at h
    split at h
    · obtain ⟨z, hz, rfl⟩ := Option.map_eq_some_iff.mp h
      first | exact quotient_of_div? hz | exact quotient_of_mod? hz
    · cases h
  | and | or =>
    simp only [Value.binary?] at h
    split at h
    · cases h
      rfl
    · cases h
  | equal | notEqual | less | lessEqual | greater | greaterEqual =>
    obtain ⟨o, ho, rfl⟩ := Option.map_eq_some_iff.mp h
    exact comparison_of_compare? ho

theorem unaryValue_of_unary? {op : UnaryOp} (h : Value.unary? op a = some v) :
    unaryValue op a = .ok v := by
  unfold Value.unary? at h
  split at h
  · cases h; rfl
  · cases h; rfl
  · obtain ⟨z, hz, rfl⟩ := Option.map_eq_some_iff.mp h
    simp [unaryValue, hz, word]
  · cases h; rfl
  · cases h; rfl
  · cases h

/-- What folding computes ahead is the value while the program runs, whichever operands are read. -/
theorem combine_of_binary? (h : Value.binary? op a b = some v) :
    combine op (.scalar a) (.ok (.scalar b)) = .ok (.scalar v) := by
  unfold combine
  split
  · next d hd =>
    unfold decided at hd
    split at hd
    · next heq =>
      cases heq
      cases hd
      cases b <;> simp [Value.binary?] at h
      rw [h]
    · next heq =>
      cases heq
      cases hd
      cases b <;> simp [Value.binary?] at h
      rw [h]
    · cases hd
  · change Datum.scalar <$> binaryValue op a b = _
    rw [binaryValue_of_binary? h]
    rfl

theorem scalar_of_base {d : Datum} (hd : d.base = A.base) (hA : A.Proper) (hs : A.base ≠ .string) :
    ∃ v, d = .scalar v ∧ v.type = A := by
  cases d with
  | string s => exact (hs hd.symm).elim
  | scalar v =>
    refine ⟨v, rfl, ?_⟩
    rw [hA.eq, ← hd]
    cases v <;> rfl

theorem base_scalar (v : Value) : (Datum.scalar v).base = v.type.base := by
  cases v <;> rfl

theorem operands_not_string (h : Ty.binary? op A B = some T) :
    A.base ≠ .string ∧ B.base ≠ .string := by
  obtain ⟨hA, hB, _⟩ := Ty.binary?_proper h
  rw [hA.eq, hB.eq] at h
  generalize A.base = a at h ⊢
  generalize B.base = b at h ⊢
  constructor
  · rintro rfl
    cases op <;> cases b <;> cases h
  · rintro rfl
    cases op <;> cases a <;> cases h

theorem word_type {x : Option Int64} (h : word x = .ok v) : v.type = .int := by
  cases x with
  | some z => cases h; rfl
  | none => cases h

theorem binaryValue_type (h : binaryValue op a b = .ok v) :
    Ty.binary? op a.type b.type = some v.type := by
  cases op with
  | add | sub | mul =>
    cases a with
    | int x =>
      cases b with
      | int y => rw [word_type h]; rfl
      | real y => cases h; rfl
      | char y | bool y => cases h
    | real x =>
      cases b with
      | int y | real y => cases h; rfl
      | char y | bool y => cases h
    | char x | bool x => cases b <;> cases h
  | divide =>
    cases a <;> cases b <;> cases h <;> rfl
  | div | mod =>
    cases a with
    | int x =>
      cases b with
      | int y =>
        simp only [binaryValue, quotient] at h
        split at h
        · cases h
        · rw [word_type h]; rfl
      | real y | char y | bool y => cases h
    | real x | char x | bool x => cases h
  | and | or => cases a <;> cases b <;> cases h; rfl
  | equal | notEqual | less | lessEqual | greater | greaterEqual =>
    cases a <;> cases b <;> cases h <;> rfl

theorem combine_base {a d : Datum} {b : Outcome Datum} (h : Ty.binary? op A B = some T)
    (ha : a.base = A.base) (hb : ∀ d, b = .ok d → d.base = B.base) (hd : combine op a b = .ok d) :
    d.base = T.base := by
  obtain ⟨hA, hB, _⟩ := Ty.binary?_proper h
  obtain ⟨sA, sB⟩ := operands_not_string h
  obtain ⟨v, rfl, rfl⟩ := Run.scalar_of_base ha hA sA
  unfold combine at hd
  split at hd
  · next c hc =>
    cases hd
    unfold decided at hc
    split at hc
    · cases hc
      simp only [Ty.binary?, Option.ite_none_right_eq_some, Option.some.injEq] at h
      rw [← h.2]
      rfl
    · cases hc
      simp only [Ty.binary?, Option.ite_none_right_eq_some, Option.some.injEq] at h
      rw [← h.2]
      rfl
    · cases hc
  · cases b with
    | error f => cases hd
    | ok e =>
      obtain ⟨w, rfl, rfl⟩ := scalar_of_base (hb _ rfl) hB sB
      change Datum.scalar <$> binaryValue op v w = .ok d at hd
      cases hz : binaryValue op v w with
      | error f => rw [hz] at hd; cases hd
      | ok z =>
        rw [hz] at hd
        cases hd
        rw [binaryValue_type hz] at h
        rw [base_scalar, Option.some.inj h]

theorem unary_base {op : UnaryOp} {a d : Datum} (h : Ty.unary? op A = some T)
    (ha : a.base = A.base) (hd : unary op a = .ok d) : d.base = T.base := by
  rw [(Ty.unary?_proper h).2, ← ha]
  cases a with
  | string s => cases hd
  | scalar v =>
    cases op with
    | plus => cases v <;> cases hd <;> rfl
    | minus =>
      cases v with
      | int x =>
        change Datum.scalar <$> word (Integer.neg? x) = .ok d at hd
        cases hz : Integer.neg? x with
        | some z => rw [hz] at hd; cases hd; rfl
        | none => rw [hz] at hd; cases hd
      | real x => cases hd; rfl
      | char x | bool x => cases hd
    | not => cases v <;> cases hd; rfl

end Run

namespace C

open Run (Datum Outcome)

/-- The form of a value in C: a boolean is zero or one. -/
def Value.ofValue : MiniPascal.Value → Value
  | .int v => .int v
  | .real v => .double v
  | .char v => .char v
  | .bool v => .ofBool v

def Value.ofDatum : Datum → Value
  | .scalar v => .ofValue v
  | .string s => .string s

open C.Value

theorem toInt_code (c : Char) : (Int64.ofInt c.toNat).toInt = c.toNat := by
  have hc : c.toNat < 1114112 := by
    have := c.valid
    rcases this with h | ⟨_, h⟩ <;> simp only [Char.toNat] at * <;> omega
  rw [Int64.toInt_ofInt_of_le] <;> simp
  omega

theorem compare_codes (c d : Char) :
    compare (Int64.ofInt c.toNat).toInt (Int64.ofInt d.toNat).toInt = compare c.toNat d.toNat := by
  rw [toInt_code, toInt_code]
  simp only [compare, compareOfLessAndEq, Int.ofNat_lt, Int.ofNat_inj]

theorem word_map (x : Option Int64) : Value.word x = ofValue <$> Run.word x := by
  cases x <;> rfl

theorem arithmetic_map (f : Int64 → Int64 → Option Int64) (g : Float → Float → Float)
    {a b : MiniPascal.Value} (ha : a.type.isNumeric) (hb : b.type.isNumeric) :
    usual (fun x y => Value.word (f x y)) (fun x y => .ok (.double (g x y))) (ofValue a) (ofValue b)
      = ofValue <$> Run.arithmetic f g a b := by
  cases a with
  | int x =>
    cases b with
    | int y => exact word_map (f x y)
    | real y => rfl
    | char y | bool y => cases hb
  | real x =>
    cases b with
    | int y | real y => rfl
    | char y | bool y => cases hb
  | char x | bool x => cases ha

theorem quotient_map (f : Int64 → Int64 → Option Int64) (x y : Int64) :
    Value.quotient f x y = ofValue <$> Run.quotient f (.int x) (.int y) := by
  simp only [Value.quotient, Run.quotient]
  split
  · rfl
  · exact word_map (f x y)

variable {op : MiniPascal.BinaryOp} {a : Datum} {A B T : MiniPascal.Ty}

theorem holds_ofSource (h : op.isComparison) (o : Ordering) :
    (BinaryOp.ofSource op).holds o = MiniPascal.Value.holds op o := by
  cases op with
  | equal | notEqual | less | lessEqual | greater | greaterEqual => cases o <;> rfl
  | add | sub | or | mul | divide | div | mod | and => cases h

theorem doublesHold_ofSource (h : op.isComparison) (x y : Float) :
    (BinaryOp.ofSource op).doublesHold x y = Run.realHolds op x y := by
  unfold BinaryOp.doublesHold Run.realHolds
  cases MiniPascal.Value.compareReals? x y with
  | some o => exact holds_ofSource h o
  | none =>
    cases op with
    | equal | notEqual | less | lessEqual | greater | greaterEqual => rfl
    | add | sub | or | mul | divide | div | mod | and => cases h

theorem comparison_map (h : op.isComparison) {a b : MiniPascal.Value}
    (hab : (MiniPascal.Ty.join a.type b.type).isError = false) :
    usual (fun x y => .ok (ofBool ((BinaryOp.ofSource op).holds (compare x.toInt y.toInt))))
        (fun x y => .ok (ofBool ((BinaryOp.ofSource op).doublesHold x y))) (ofValue a) (ofValue b)
      = ofValue <$> Run.comparison op a b := by
  simp only [holds_ofSource h, doublesHold_ofSource h]
  cases a with
  | int x =>
    cases b with
    | int y | real y => rfl
    | char y | bool y => cases hab
  | real x =>
    cases b with
    | int y | real y => rfl
    | char y | bool y => cases hab
  | char x =>
    cases b with
    | char y =>
      simp only [usual, ofValue, promoted, compare_codes]
      rfl
    | int y | real y | bool y => cases hab
  | bool x =>
    cases b with
    | bool y => cases x <;> cases y <;> rfl
    | int y | real y | char y => cases hab

/-- Whether the left operand is made a `double` first: two integers have to be divided as reals. -/
def widening (op : MiniPascal.BinaryOp) (a b : MiniPascal.Ty) : Bool :=
  op == .divide && a.isA .int && b.isA .int

def widened (wide : Bool) (v : Value) : Outcome Value :=
  if wide then v.convert .double else .ok v

theorem divide_map {a b : MiniPascal.Value} (ha : a.type.isNumeric) (hb : b.type.isNumeric) :
    (do BinaryOp.div.apply (← widened (widening .divide a.type b.type) (ofValue a)) (ofValue b))
      = ofValue <$> Run.realQuotient a b := by
  cases a with
  | int x =>
    cases b with
    | int y | real y => rfl
    | char y | bool y => cases hb
  | real x =>
    cases b with
    | int y | real y => rfl
    | char y | bool y => cases hb
  | char x | bool x => cases ha

theorem apply_map {a b : MiniPascal.Value} (h : MiniPascal.Ty.binary? op a.type b.type = some T) :
    (do (BinaryOp.ofSource op).apply (← widened (widening op a.type b.type) (ofValue a)) (ofValue b))
      = ofValue <$> Run.binaryValue op a b := by
  cases op with
  | add | sub | mul =>
    simp only [MiniPascal.Ty.binary?, Option.ite_none_right_eq_some] at h
    obtain ⟨ha, hb⟩ := MiniPascal.Ty.join_isNumeric h.1
    exact arithmetic_map _ _ ha hb
  | divide =>
    simp only [MiniPascal.Ty.binary?, Option.ite_none_right_eq_some] at h
    obtain ⟨ha, hb⟩ := MiniPascal.Ty.join_isNumeric h.1
    exact divide_map ha hb
  | div | mod =>
    cases a with
    | int x =>
      cases b with
      | int y => exact quotient_map _ x y
      | real y | char y | bool y => cases h
    | real x | char x | bool x => cases h
  | and | or =>
    cases a with
    | bool x =>
      cases b with
      | bool y => cases x <;> cases y <;> rfl
      | int y | real y | char y => cases h
    | int x | real x | char x => cases h
  | equal | notEqual | less | lessEqual | greater | greaterEqual =>
    simp only [MiniPascal.Ty.binary?, Option.ite_none_right_eq_some, Bool.and_eq_true,
      Bool.not_eq_true'] at h
    exact comparison_map rfl h.1.1

theorem widened_ok (op : MiniPascal.BinaryOp) (a : MiniPascal.Value) (B : MiniPascal.Ty) :
    ∃ x, widened (widening op a.type B) (ofValue a) = .ok x := by
  unfold widened
  split
  · next hw =>
    simp only [widening, Bool.and_eq_true] at hw
    cases a with
    | int v => exact ⟨_, rfl⟩
    | real v | char v | bool v => cases hw.1.2
  · exact ⟨_, rfl⟩

/-- A binary operation gives in C what it gives in the source, also where an operand fails or is not
looked at. -/
theorem combine_map {b : Outcome Datum} (h : MiniPascal.Ty.binary? op A B = some T)
    (ha : a.base = A.base) (hb : ∀ d, b = .ok d → d.base = B.base) :
    (do (BinaryOp.ofSource op).combine (← widened (widening op A B) (ofDatum a)) (ofDatum <$> b))
      = ofDatum <$> Run.combine op a b := by
  obtain ⟨hA, hB, _⟩ := MiniPascal.Ty.binary?_proper h
  obtain ⟨sA, sB⟩ := Run.operands_not_string h
  obtain ⟨v, rfl, rfl⟩ := Run.scalar_of_base ha hA sA
  -- Only the logical operators look at the left operand alone.
  cases op with
  | and | or =>
    cases v with
    | bool x =>
      cases b with
      | error f => cases x <;> rfl
      | ok d =>
        obtain ⟨w, rfl, rfl⟩ := Run.scalar_of_base (hb _ rfl) hB sB
        cases w with
        | bool y => cases x <;> cases y <;> rfl
        | int y | real y | char y => cases h
    | int x | real x | char x => cases h
  | add | sub | mul | divide | div | mod | equal | notEqual | less | lessEqual | greater
  | greaterEqual =>
    cases b with
    | error f =>
      obtain ⟨x, hx⟩ := widened_ok _ v B
      rw [ofDatum, hx]
      rfl
    | ok d =>
      obtain ⟨w, rfl, rfl⟩ := Run.scalar_of_base (hb _ rfl) hB sB
      refine (apply_map h).trans ?_
      change ofValue <$> Run.binaryValue _ v w = ofDatum <$> Datum.scalar <$> Run.binaryValue _ v w
      generalize Run.binaryValue _ v w = z
      cases z <;> rfl

/-- What a prefix operator of the source does in C, where a plus is left out. -/
def prefixValue : MiniPascal.UnaryOp → Value → Outcome Value
  | .plus, v => .ok v
  | .minus, v => UnaryOp.minus.apply v
  | .not, v => UnaryOp.not.apply v

theorem unary_map {op : MiniPascal.UnaryOp} (h : MiniPascal.Ty.unary? op A = some T)
    (ha : a.base = A.base) : prefixValue op (ofDatum a) = ofDatum <$> Run.unary op a := by
  obtain ⟨hA, _⟩ := MiniPascal.Ty.unary?_proper h
  have sA : A.base ≠ .string := by
    intro hs
    rw [hA.eq, hs] at h
    cases op <;> cases h
  obtain ⟨v, rfl, rfl⟩ := Run.scalar_of_base ha hA sA
  cases op with
  | plus =>
    cases v with
    | int x | real x => rfl
    | char x | bool x => cases h
  | minus =>
    cases v with
    | int x =>
      change Value.word (Integer.neg? x) = ofDatum <$> Datum.scalar <$> Run.word (Integer.neg? x)
      generalize Integer.neg? x = z
      cases z <;> rfl
    | real x => rfl
    | char x | bool x => cases h
  | not =>
    cases v with
    | bool x => cases x <;> rfl
    | int x | real x | char x => cases h

end C

end MiniPascal

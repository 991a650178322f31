/-!
Integers of the language are 64-bit words. Every operation here is checked: it answers only when
the mathematical result is a word, so nothing wraps around.
-/

namespace MiniPascal.Integer

/-- The word of value `n`, if there is one. -/
def ofInt? (n : Int) : Option Int64 :=
  if Int64.minValue.toInt ≤ n ∧ n ≤ Int64.maxValue.toInt then some (Int64.ofInt n) else none

/-- A word that was found for an integer is of its value. -/
theorem toInt_of_ofInt? {n : Int} {w : Int64} (h : ofInt? n = some w) : w.toInt = n := by
  unfold ofInt? at h
  split at h
  · next hn =>
    cases h
    exact Int64.toInt_ofInt_of_le hn.1 (Int.lt_add_one_iff.mpr hn.2)
  · cases h

def add? (a b : Int64) : Option Int64 := ofInt? (a.toInt + b.toInt)

def sub? (a b : Int64) : Option Int64 := ofInt? (a.toInt - b.toInt)

def mul? (a b : Int64) : Option Int64 := ofInt? (a.toInt * b.toInt)

def neg? (a : Int64) : Option Int64 := ofInt? (-a.toInt)

/-- Division toward zero. -/
def div? (a b : Int64) : Option Int64 :=
  if b = 0 then none else ofInt? (a.toInt.tdiv b.toInt)

/-- The remainder of `div?`: it exists exactly when the quotient does. -/
def mod? (a b : Int64) : Option Int64 :=
  if (div? a b).isSome then ofInt? (a.toInt.tmod b.toInt) else none

def text (a : Int64) : String := toString a.toInt

end MiniPascal.Integer

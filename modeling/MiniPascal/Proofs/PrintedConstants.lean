import Mathlib.Data.List.Chain
import Mathlib.Tactic.IntervalCases
import Mathlib.Tactic.SplitIfs
import MiniPascal.Decimal.Layout
import MiniPascal.Proofs.CGrammar

/-!
# Constants as C reads them

Numbers are written so that C reads the number they denote, and texts between quotes so that it
reads their encoding in UTF-8.
-/

namespace MiniPascal

open List

namespace Decimal

theorem ofDigits_eq (cs : List Char) : ofDigits cs = Nat.ofDigitChars 10 cs 0 :=
  Nat.ofDigitChars_eq_foldl.symm

theorem ofDigits_toDigits (n : Nat) : ofDigits (Nat.toDigits 10 n) = n := by
  rw [ofDigits_eq, Nat.ofDigitChars_ten_toDigits]

theorem ofDigits_zeros_append (n : Nat) (cs : List Char) :
    ofDigits (List.replicate n '0' ++ cs) = ofDigits cs := by
  simp [ofDigits_eq, Nat.ofDigitChars_append]

theorem ofDigits_append_zeros (cs : List Char) (n : Nat) :
    ofDigits (cs ++ List.replicate n '0') = ofDigits cs * 10 ^ n := by
  simp [ofDigits_eq, Nat.ofDigitChars_append, Nat.mul_comm]

theorem value_mul_pow (n j : Nat) (k : Int) : value ⟨n * 10 ^ j, k⟩ = value ⟨n, k + j⟩ := by
  simp only [value, Nat.cast_mul, Nat.cast_pow, Nat.cast_ofNat]
  rw [zpow_add₀ (by norm_num), zpow_natCast]
  ring

end Decimal

namespace C

theorem all_isDigit_toDigits (n : Nat) : (Nat.toDigits 10 n).all Char.isDigit = true :=
  all_eq_true.mpr fun _ => Nat.isDigit_of_mem_toDigits (by decide) (by decide)

theorem head?_toDigits {n : Nat} (hn : n ≠ 0) : (Nat.toDigits 10 n).head? ≠ some '0' := by
  induction n using Nat.strongRecOn with
  | ind n ih =>
    by_cases hlt : n < 10
    · rw [Nat.toDigits_of_lt_base hlt]
      interval_cases n <;> simp_all [Nat.digitChar]
    · rw [Nat.toDigits_of_base_le (by decide) (by omega),
        head?_append_of_ne_nil _ Nat.toDigits_ne_nil]
      exact ih (n / 10) (by omega) (by omega)

variable {cs digits whole : List Char} {k : Int} {c : Char}

theorem digits?_eq (hne : cs ≠ []) (hcs : cs.all Char.isDigit = true) :
    digits? cs = some (Decimal.ofDigits cs) := if_pos ⟨hne, hcs⟩

theorem number?_toDigits (n : Nat) : number? (Nat.toDigits 10 n) = some (.int n) := by
  have hall := all_isDigit_toDigits n
  have hend : ∀ c ∈ ([] : List Char).head?, c.isDigit = false := nofun
  have hsplit := takeWhile_append hall hend
  rw [append_nil] at hsplit
  have hzero : Nat.toDigits 10 n = ['0'] ∨ (Nat.toDigits 10 n).head? ≠ some '0' := by
    by_cases hn : n = 0
    · exact .inl (by rw [hn, Nat.toDigits_zero])
    · exact .inr (head?_toDigits hn)
  simp only [number?, hsplit]
  rw [if_pos hzero, digits?_eq Nat.toDigits_ne_nil hall, Decimal.ofDigits_toDigits, Option.map_some]

theorem scale?_digits (hne : cs ≠ []) (hcs : cs.all Char.isDigit = true) :
    scale? ('e' :: cs) = some (Decimal.ofDigits cs : Int) := by
  have hdigits := digits?_eq hne hcs
  cases cs with
  | nil => exact absurd rfl hne
  | cons c cs =>
    have hc : c.isDigit = true := by simp_all
    rw [scale?, if_pos (.inl rfl), hdigits, Option.map_some]
    all_goals
      rintro ds ⟨⟩
      cases hc

theorem toList_toString_int (k : Int) :
    (toString k).toList = (if k < 0 then ['-'] else []) ++ Nat.toDigits 10 k.natAbs := by
  cases k with
  | ofNat n =>
    have h : toString (Int.ofNat n) = toString n := rfl
    rw [h, Nat.toString_eq_ofList_toDigits, String.toList_ofList, if_neg (by simp)]
    rfl
  | negSucc n =>
    have h : toString (Int.negSucc n) = "-" ++ toString (n + 1) := rfl
    rw [h, String.toList_append, Nat.toString_eq_ofList_toDigits, if_pos (Int.negSucc_lt_zero n)]
    simp

theorem scale?_text (k : Int) : scale? ('e' :: (toString k).toList) = some k := by
  have hall := all_isDigit_toDigits k.natAbs
  rw [toList_toString_int]
  by_cases hk : k < 0
  · rw [if_pos hk, singleton_append, scale?, if_pos (.inl rfl)]
    simp only [digits?_eq Nat.toDigits_ne_nil hall, Decimal.ofDigits_toDigits, Option.map_some]
    congr 1
    omega
  · rw [if_neg hk, nil_append, scale?_digits Nat.toDigits_ne_nil hall,
      Decimal.ofDigits_toDigits]
    congr 1
    omega

theorem number?_point {fraction scale : List Char} (hwhole : whole.all Char.isDigit = true)
    (hfraction : fraction.all Char.isDigit = true) (hne : whole ≠ [])
    (hhead : ∀ c ∈ scale.head?, c.isDigit = false) (hscale : scale? scale = some k) :
    number? (whole ++ '.' :: (fraction ++ scale)) =
      some (.real (Decimal.value ⟨Decimal.ofDigits (whole ++ fraction), k - fraction.length⟩)) := by
  have hpoint : ∀ c ∈ ('.' :: (fraction ++ scale)).head?, c.isDigit = false := by
    intro c hc
    cases hc
    rfl
  have hdigits : digits? (whole ++ fraction) = some (Decimal.ofDigits (whole ++ fraction)) :=
    digits?_eq (by simp [hne]) (by rw [all_append, hwhole, hfraction]; rfl)
  simp only [number?, takeWhile_append hwhole hpoint, takeWhile_append hfraction hhead, hdigits,
    hscale]

theorem number?_scaled (hwhole : whole.all Char.isDigit = true) (hne : whole ≠ [])
    (hscale : scale? ('e' :: cs) = some k) :
    number? (whole ++ 'e' :: cs) = some (.real (Decimal.value ⟨Decimal.ofDigits whole, k⟩)) := by
  have hletter : ∀ c ∈ ('e' :: cs).head?, c.isDigit = false := by
    intro c hc
    cases hc
    rfl
  simp [number?, takeWhile_append hwhole hletter, digits?_eq hne hwhole, hscale]

/-- The first character of a text is of a kind. -/
def Starts (kind : Char → Bool) (cs : List Char) : Prop := ∃ c ∈ cs.head?, kind c = true

namespace Starts

variable {kind other : Char → Bool} {cs : List Char}

theorem of_imp (h : Starts kind cs) (himp : ∀ c, kind c = true → other c = true) :
    Starts other cs := by
  obtain ⟨c, hc, hkind⟩ := h
  exact ⟨c, hc, himp c hkind⟩

theorem append (h : Starts kind cs) (rest : List Char) : Starts kind (cs ++ rest) := by
  obtain ⟨c, hc, hkind⟩ := h
  cases cs with
  | nil => cases hc
  | cons d ds => exact ⟨c, hc, hkind⟩

theorem of_all (hne : cs ≠ []) (hcs : cs.all kind = true) : Starts kind cs := by
  cases cs with
  | nil => exact absurd rfl hne
  | cons c cs => exact ⟨c, rfl, all_eq_true.mp hcs c mem_cons_self⟩

end Starts

/-- A text that C takes for a number as a whole, and for which one. -/
structure IsNumeral (s : List Char) (v : Number) : Prop where
  reads : number? s = some v
  starts : Starts Char.isDigit s
  connected : s.IsChain fun a b => inNumber a b = true

/-- A character that belongs to a number wherever it stands. -/
def IsPlain (c : Char) : Prop := isWordChar c = true ∨ c = '.'

theorem isPlain_of_isDigit (h : c.isDigit = true) : IsPlain c :=
  .inl (by rw [isWordChar, h, Bool.or_true])

theorem inNumber_of_isPlain {previous : Char} (h : IsPlain c) : inNumber previous c = true := by
  rcases h with h | rfl
  · simp [inNumber, h]
  · simp [inNumber]

variable {rest : List Char}

theorem isChain_append (hcs : ∀ c ∈ cs, IsPlain c) (hhead : ∀ c ∈ rest.head?, IsPlain c)
    (hrest : rest.IsChain fun a b => inNumber a b = true) :
    (cs ++ rest).IsChain fun a b => inNumber a b = true := by
  induction cs with
  | nil => exact hrest
  | cons c cs ih =>
    obtain ⟨_, hcs⟩ := forall_mem_cons.mp hcs
    refine isChain_cons.mpr ⟨?_, ih hcs⟩
    intro d hd
    apply inNumber_of_isPlain
    cases cs with
    | nil => exact hhead d hd
    | cons e es =>
      obtain rfl : e = d := Option.some.inj hd
      exact hcs e mem_cons_self

theorem isPlain_of_all (h : cs.all Char.isDigit = true) : ∀ c ∈ cs, IsPlain c :=
  fun c hc => isPlain_of_isDigit (all_eq_true.mp h c hc)

theorem isChain_digits (h : cs.all Char.isDigit = true) :
    cs.IsChain fun a b => inNumber a b = true := by
  rw [← append_nil cs]
  exact isChain_append (isPlain_of_all h) nofun .nil

theorem isChain_cons_digits (c : Char) (h : cs.all Char.isDigit = true) :
    (c :: cs).IsChain fun a b => inNumber a b = true :=
  isChain_cons.mpr ⟨fun d hd => inNumber_of_isPlain
    (isPlain_of_all h d (mem_of_mem_head? hd)), isChain_digits h⟩

theorem isNumeral_toDigits (n : Nat) : IsNumeral (Nat.toDigits 10 n) (.int n) where
  reads := number?_toDigits n
  starts := .of_all Nat.toDigits_ne_nil (all_isDigit_toDigits n)
  connected := isChain_digits (all_isDigit_toDigits n)

/-- The end of a real number, and the power of ten it gives. -/
structure IsScale (s : List Char) (k : Int) : Prop where
  reads : scale? s = some k
  starts : ∀ c ∈ s.head?, c = 'e'
  connected : s.IsChain fun a b => inNumber a b = true

theorem isScale_nil : IsScale [] 0 := ⟨rfl, nofun, .nil⟩

theorem isScale_toString (k : Int) : IsScale ('e' :: (toString k).toList) k where
  reads := scale?_text k
  starts := by simp
  connected := by
    have hall := all_isDigit_toDigits k.natAbs
    rw [toList_toString_int]
    split
    · exact isChain_cons_cons.mpr ⟨by decide, isChain_cons_digits '-' hall⟩
    · exact isChain_cons_digits 'e' hall

theorem isNumeral_point {fraction scale : List Char} (hwhole : whole.all Char.isDigit = true)
    (hne : whole ≠ []) (hfraction : fraction.all Char.isDigit = true) (hscale : IsScale scale k) :
    IsNumeral (whole ++ '.' :: (fraction ++ scale))
      (.real (Decimal.value ⟨Decimal.ofDigits (whole ++ fraction), k - fraction.length⟩)) where
  reads := by
    refine number?_point hwhole hfraction hne ?_ hscale.reads
    intro c hc
    rw [hscale.starts c hc]
    rfl
  starts := (Starts.of_all hne hwhole).append _
  connected := by
    have hplain : ∀ c ∈ whole ++ '.' :: fraction, IsPlain c := by
      intro c hc
      rcases mem_append.mp hc with hc | hc
      · exact isPlain_of_all hwhole c hc
      rcases mem_cons.mp hc with rfl | hc
      · exact .inr rfl
      · exact isPlain_of_all hfraction c hc
    rw [← cons_append, ← append_assoc]
    exact isChain_append hplain (fun c hc => .inl (hscale.starts c hc ▸ rfl)) hscale.connected

theorem isNumeral_scaled (hwhole : whole.all Char.isDigit = true) (hne : whole ≠ []) (k : Int) :
    IsNumeral (whole ++ 'e' :: (toString k).toList)
      (.real (Decimal.value ⟨Decimal.ofDigits whole, k⟩)) where
  reads := number?_scaled hwhole hne (scale?_text k)
  starts := (Starts.of_all hne hwhole).append _
  connected := isChain_append (isPlain_of_all hwhole)
    (fun c hc => .inl ((isScale_toString k).starts c hc ▸ rfl)) (isScale_toString k).connected

theorem all_isDigit_replicate (n : Nat) : (List.replicate n '0').all Char.isDigit = true := by
  rw [all_replicate]
  split <;> rfl

/-- Digits written out with a point denote what they denote without it, scaled by its place. -/
theorem isNumeral_writeOut (hdigits : digits.all Char.isDigit = true) (hne : digits ≠ [])
    (k : Int) : IsNumeral (Decimal.writeOut digits (k + digits.length)).toList
      (.real (Decimal.value ⟨Decimal.ofDigits digits, k⟩)) := by
  unfold Decimal.writeOut
  split
  · next hpoint =>
    -- zeros stand between the point and the digits
    generalize hm : (-(k + digits.length)).toNat = m
    have hfraction : (List.replicate m '0' ++ digits).all Char.isDigit = true := by
      rw [all_append, all_isDigit_replicate, hdigits, Bool.and_self]
    have hvalue : Decimal.ofDigits (['0'] ++ (List.replicate m '0' ++ digits)) =
        Decimal.ofDigits digits := by
      rw [← append_assoc]
      exact Decimal.ofDigits_zeros_append (m + 1) digits
    have hscale : (0 : Int) - (List.replicate m '0' ++ digits).length = k := by
      rw [length_append, length_replicate]
      omega
    have hwhole : ['0'].all Char.isDigit = true := rfl
    have h := isNumeral_point hwhole (by simp) hfraction isScale_nil
    rw [hvalue, hscale, append_nil] at h
    simpa [Decimal.zeros] using h
  split
  · next hpoint hlong =>
    -- zeros stand between the digits and the point
    obtain ⟨j, rfl⟩ := Int.eq_ofNat_of_zero_le (show 0 ≤ k by omega)
    have hj : ((j : Int) + digits.length).toNat - digits.length = j := by omega
    have hwhole : (digits ++ List.replicate j '0').all Char.isDigit = true := by
      rw [all_append, all_isDigit_replicate, hdigits, Bool.and_self]
    have hfraction : ['0'].all Char.isDigit = true := rfl
    have h := isNumeral_point hwhole (by simp [hne]) hfraction isScale_nil
    have hvalue : Decimal.ofDigits (digits ++ List.replicate j '0' ++ ['0']) =
        Decimal.ofDigits digits * 10 ^ (j + 1) := by
      rw [append_assoc, ← Decimal.ofDigits_append_zeros, replicate_succ']
    have hscale : (0 : Int) - (['0'] : List Char).length + (j + 1 : Nat) = j := by
      rw [length_singleton]
      omega
    rw [hvalue, Decimal.value_mul_pow, hscale, append_nil] at h
    simpa [Decimal.zeros, hj] using h
  · next hpoint hlong =>
    have hall := all_eq_true.mp hdigits
    have htake : (digits.take (k + digits.length).toNat).all Char.isDigit = true :=
      all_eq_true.mpr fun c hc => hall c (mem_of_mem_take hc)
    have hdrop : (digits.drop (k + digits.length).toNat).all Char.isDigit = true :=
      all_eq_true.mpr fun c hc => hall c (mem_of_mem_drop hc)
    have hscale : (0 : Int) - (digits.drop (k + digits.length).toNat).length = k := by
      rw [length_drop]
      omega
    have h := isNumeral_point htake (by simp [hne]; omega) hdrop isScale_nil
    rw [take_append_drop, hscale, append_nil] at h
    simpa using h

theorem isNumeral_writeScaled (hdigits : digits.all Char.isDigit = true) (hne : digits ≠ [])
    (k : Int) : IsNumeral (Decimal.writeScaled digits (k + digits.length - 1)).toList
      (.real (Decimal.value ⟨Decimal.ofDigits digits, k⟩)) := by
  cases digits with
  | nil => exact absurd rfl hne
  | cons d ds =>
    obtain ⟨hd, hds⟩ := (Bool.and_eq_true _ _).mp (all_cons ▸ hdigits)
    have hd : [d].all Char.isDigit = true := by simpa using hd
    by_cases hempty : ds = []
    · subst hempty
      have h := isNumeral_scaled hd (by simp) k
      simpa [Decimal.writeScaled] using h
    · have h := isNumeral_point hd (by simp) hds (isScale_toString (k + (d :: ds).length - 1))
      have hscale : k + (d :: ds).length - 1 - ds.length = k := by
        rw [length_cons]
        omega
      rw [hscale] at h
      simpa [Decimal.writeScaled, hempty] using h

theorem isNumeral_decimal (d : Decimal) : IsNumeral d.text.toList (.real d.value) := by
  have hdigits := all_isDigit_toDigits d.digits
  have hne : Nat.toDigits 10 d.digits ≠ [] := Nat.toDigits_ne_nil
  have hout := isNumeral_writeOut hdigits hne d.exponent
  have hscaled := isNumeral_writeScaled hdigits hne d.exponent
  rw [Decimal.ofDigits_toDigits] at hout hscaled
  simp only [Decimal.text]
  split
  · rw [Int.sub_add_cancel]
    exact hout
  · exact hscaled

variable {quote : Char}

theorem readQuoted_plain (hquote : c ≠ quote) (hline : c ≠ '\n') (hescape : c ≠ '\\') :
    readQuoted quote (c :: rest) =
      (readQuoted quote rest).map fun q => (String.utf8EncodeChar c ++ q.1, q.2) := by
  rw [readQuoted, if_neg hquote, if_neg hline, if_neg hescape]

theorem readQuoted_escape {byte : UInt8} (hquote : quote ≠ '\\')
    (h : readEscape cs = some (byte, rest)) : readQuoted quote ('\\' :: cs) =
      (readQuoted quote rest).map fun q => (byte :: q.1, q.2) := by
  rw [readQuoted, if_neg hquote.symm, if_neg (by decide), if_pos rfl]
  split
  · next hnone => cases h.symm.trans hnone
  · next hsome =>
    cases h.symm.trans hsome
    rfl

theorem utf8EncodeChar_of_lt (h : c.toNat < 128) :
    String.utf8EncodeChar c = [UInt8.ofNat c.toNat] :=
  if_pos (Nat.le_of_lt_succ h)

theorem octalDigit_spec (n : Nat) :
    isOctal (octalDigit n) = true ∧ (octalDigit n).toNat - '0'.toNat = n % 8 := by
  have hlt : n % 8 < 8 := Nat.mod_lt n (by decide)
  unfold octalDigit
  generalize n % 8 = k at hlt
  interval_cases k <;> decide

theorem readEscape_octal (byte : UInt8) (rest : List Char) :
    readEscape (octalDigit (byte.toNat / 64) :: octalDigit (byte.toNat / 8) ::
      octalDigit byte.toNat :: rest) = some (byte, rest) := by
  obtain ⟨h₁, v₁⟩ := octalDigit_spec (byte.toNat / 64)
  obtain ⟨h₂, v₂⟩ := octalDigit_spec (byte.toNat / 8)
  obtain ⟨h₃, v₃⟩ := octalDigit_spec byte.toNat
  have hbyte := byte.toNat_lt
  have hvalue : 8 * (8 * (8 * 0 + byte.toNat / 64 % 8) + byte.toNat / 8 % 8) + byte.toNat % 8 =
      byte.toNat := by omega
  rw [readEscape, if_pos h₁]
  simp only [take_succ_cons, take_zero, takeWhile_cons_of_pos h₂,
    takeWhile_cons_of_pos h₃, takeWhile_nil, foldl_cons, foldl_nil, v₁, v₂, v₃,
    hvalue, length_cons, length_nil, drop_succ_cons, drop_zero]
  rw [if_pos hbyte, UInt8.ofNat_toNat]

theorem readQuoted_octal (hquote : quote ≠ '\\') (byte : UInt8) (rest : List Char) :
    readQuoted quote (octal byte.toNat ++ rest) =
      (readQuoted quote rest).map fun q => (byte :: q.1, q.2) :=
  readQuoted_escape hquote (readEscape_octal byte rest)

theorem readQuoted_control (hquote : quote ≠ '\\') (hc : isControl c = true) (rest : List Char) :
    readQuoted quote (octal c.toNat ++ rest) =
      (readQuoted quote rest).map fun q => (String.utf8EncodeChar c ++ q.1, q.2) := by
  have hlt : c.toNat < 128 := by
    simp only [isControl, Bool.or_eq_true, decide_eq_true_eq, beq_iff_eq] at hc
    omega
  have hbyte : (UInt8.ofNat c.toNat).toNat = c.toNat :=
    UInt8.toNat_ofNat_of_lt' (Nat.lt_trans hlt (by decide))
  have h := readQuoted_octal hquote (UInt8.ofNat c.toNat) rest
  rw [hbyte] at h
  rw [h, utf8EncodeChar_of_lt hlt]
  rfl

theorem readQuoted_octals (hquote : quote ≠ '\\') (bytes : List UInt8) (rest : List Char) :
    readQuoted quote ((bytes.flatMap fun byte => octal byte.toNat) ++ rest) =
      (readQuoted quote rest).map fun q => (bytes ++ q.1, q.2) := by
  induction bytes with
  | nil => simp
  | cons byte bytes ih =>
    rw [flatMap_cons, append_assoc, readQuoted_octal hquote, ih, Option.map_map]
    rfl

theorem readQuoted_text_char (c : Char) (rest : List Char) : readQuoted '"' (escape c ++ rest) =
      (readQuoted '"' rest).map fun q => (String.utf8EncodeChar c ++ q.1, q.2) := by
  unfold escape
  split_ifs with hquote hescape hline htab hreturn hcontrol
  · subst hquote
    exact readQuoted_escape (by decide) rfl
  · subst hescape
    exact readQuoted_escape (by decide) rfl
  · subst hline
    exact readQuoted_escape (by decide) rfl
  · subst htab
    exact readQuoted_escape (by decide) rfl
  · subst hreturn
    exact readQuoted_escape (by decide) rfl
  · exact readQuoted_control (by decide) hcontrol rest
  · exact readQuoted_plain hquote hline hescape
  · exact readQuoted_octals (by decide) (String.utf8EncodeChar c) rest

theorem readQuoted_text (cs rest : List Char) : readQuoted '"' (cs.flatMap escape ++ '"' :: rest) =
      some (cs.flatMap String.utf8EncodeChar, rest) := by
  induction cs with
  | nil => rw [flatMap_nil, nil_append, readQuoted, if_pos rfl, flatMap_nil]
  | cons c cs ih =>
    rw [flatMap_cons, append_assoc, readQuoted_text_char, ih, Option.map_some,
      flatMap_cons]

theorem readQuoted_char (c : Char) (rest : List Char) :
    readQuoted '\x27' (escapeQuoted c ++ '\x27' :: rest) =
      some (String.utf8EncodeChar c, rest) := by
  have hclose : readQuoted '\x27' ('\x27' :: rest) = some ([], rest) := by
    rw [readQuoted, if_pos rfl]
  have h : readQuoted '\x27' (escapeQuoted c ++ '\x27' :: rest) =
      (readQuoted '\x27' ('\x27' :: rest)).map fun q =>
        (String.utf8EncodeChar c ++ q.1, q.2) := by
    unfold escapeQuoted
    split_ifs with hquote hescape hline htab hcontrol
    · subst hquote
      exact readQuoted_escape (by decide) rfl
    · subst hescape
      exact readQuoted_escape (by decide) rfl
    · subst hline
      exact readQuoted_escape (by decide) rfl
    · subst htab
      exact readQuoted_escape (by decide) rfl
    · exact readQuoted_control (by decide) hcontrol _
    · exact readQuoted_plain hquote hline hescape
  rw [h, hclose, Option.map_some, append_nil]

end C

end MiniPascal

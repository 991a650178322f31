import MiniPascal.Token.Scan

/-!
# Tokens stand in order

Every token of a text stands after the one before it. Hence a place is enough to tell two tokens of
one text apart.
-/

namespace MiniPascal

open List

namespace Position

def Before (p q : Position) : Prop := p.line < q.line ∨ p.line = q.line ∧ p.column < q.column

variable {p q r : Position}

theorem le_iff : p.le q = true ↔ p.line < q.line ∨ p.line = q.line ∧ p.column ≤ q.column := by
  simp [le]

theorem le_refl (p : Position) : p.le p = true := by
  rw [le_iff]
  omega

theorem le_trans (h : p.le q = true) (h' : q.le r = true) : p.le r = true := by
  rw [le_iff] at h h' ⊢
  omega

theorem Before.le (h : p.Before q) : p.le q = true := by
  rw [le_iff]
  unfold Before at h
  omega

theorem Before.trans_le (h : p.Before q) (h' : q.le r = true) : p.Before r := by
  rw [le_iff] at h'
  unfold Before at h ⊢
  omega

theorem Before.ne (h : p.Before q) : p ≠ q := by
  rintro rfl
  unfold Before at h
  omega

theorem le_next (p : Position) (c : Char) : p.le (p.next c) = true := by
  rw [le_iff, next]
  split <;> simp

theorem before_right (p : Position) {n : Nat} (hn : 0 < n) : p.Before (p.right n) :=
  .inr ⟨rfl, Nat.lt_add_of_pos_right hn⟩

end Position

namespace Gap

open Position

def Ending.place : Ending → Position
  | .reached q _ => q
  | .unclosed opened => opened

/-- Where the comment opened that a reader of a gap is in. -/
def Mode.opened? : Mode → Option Position
  | .braces opened | .stars opened => some opened
  | .between | .line => none

/-- A gap ends at or after its start. A comment that is never closed is named by the place where it
opened, which can be a place before the reader. -/
theorem le_skip {o p : Position} {m : Mode} (cs : List Char) (hp : o.le p = true)
    (hm : ∀ opened ∈ m.opened?, o.le opened = true) : o.le (skip m p cs).place = true := by
  have hnext : ∀ {q : Position} (c : Char), o.le q = true → o.le (q.next c) = true :=
    fun c hq => le_trans hq (le_next _ c)
  have hnone : ∀ opened ∈ (none : Option Position), o.le opened = true := by simp
  fun_induction skip m p cs with
  | case1 | case6 | case7 | case15 => exact hp
  | case8 | case11 | case14 => exact hm _ rfl
  | case2 _ _ _ _ ih | case16 _ _ ih | case17 _ _ _ _ ih | case9 _ _ _ ih =>
    exact ih (hnext _ hp) hnone
  | case5 _ _ _ _ _ _ _ _ ih | case12 _ _ _ _ _ _ ih => exact ih (hnext _ (hnext _ hp)) hnone
  | case3 p _ _ ih => exact ih (hnext _ hp) fun _ h => Option.mem_some.mp h ▸ hp
  | case4 p _ _ _ _ _ _ ih =>
    exact ih (hnext _ (hnext _ hp)) fun _ h => Option.mem_some.mp h ▸ hp
  | case10 _ _ _ _ _ ih | case13 _ _ _ _ _ _ ih => exact ih (hnext _ hp) hm

theorem le_between {p : Position} {cs : List Char} {e : Ending} (h : skip .between p cs = e) :
    p.le e.place = true :=
  h ▸ le_skip cs (le_refl p) nofun

end Gap

theorem Mark.text_ne_nil (m : Mark) : m.text.toList ≠ [] := by
  cases m <;> decide

theorem Lexeme.text_ne_nil (c : Char) (cs : List Char) : (read c cs).text ≠ [] := by
  unfold read
  split
  · unfold readQuoted
    dsimp only
    split <;> simp [invalid]
  split
  · next hc =>
    have hwhole : (Numeral.read (c :: cs)).1.text ≠ [] := by
      simp [Numeral.read, Numeral.text, hc]
    unfold readNumber
    dsimp only
    split <;> exact hwhole
  split
  · next hc =>
    have hc : isNameChar c := by
      simp only [isNameStart, isNameChar, Char.isAlphanum, Bool.or_eq_true] at hc ⊢
      grind
    unfold readWord
    rw [takeWhile_cons_of_pos hc]
    dsimp only
    split <;> exact cons_ne_nil _ _
  split
  · next m _ _ => exact Mark.text_ne_nil m
  · simp [invalid]

open Position

theorem scanFrom_ordered (p : Position) (cs : List Char) :
    (∀ t ∈ scanFrom p cs, p.le t.position = true) ∧
      (scanFrom p cs).Pairwise fun t u => t.position.Before u.position := by
  fun_induction scanFrom p cs with
  | case1 _ _ _ hgap | case2 _ _ _ hgap | case3 _ _ _ _ _ hgap =>
    exact ⟨forall_mem_singleton.mpr (Gap.le_between hgap), pairwise_singleton _ _⟩
  | case4 p cs q c rest hgap l t hvalid ih =>
    have hle : p.le q = true := Gap.le_between hgap
    have hright : q.Before (q.right l.text.length) :=
      before_right q (length_pos_iff.mpr (Lexeme.text_ne_nil c rest))
    have hafter : ∀ u ∈ scanFrom (q.right l.text.length) l.rest, q.Before u.position :=
      fun u hu => hright.trans_le (ih.1 u hu)
    refine ⟨forall_mem_cons.mpr ⟨hle, fun u hu => le_trans hle (hafter u hu).le⟩, ?_⟩
    exact pairwise_cons.mpr ⟨hafter, ih.2⟩

theorem scan_places_nodup (source : String) : ((scan source).map Token.position).Nodup :=
  pairwise_map.mpr ((scanFrom_ordered _ _).2.imp Before.ne)

end MiniPascal

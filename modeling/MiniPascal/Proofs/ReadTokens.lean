import MiniPascal.Proofs.Rules
import MiniPascal.Proofs.Steps

/-!
# Readers and rules

A reader of phrases reads only texts of its rule (`Reads`), and it takes every text of its rule that
is followed by something that cannot go on with it (`Takes`). Here are both for the steps that
readers are made of.
-/

namespace MiniPascal

open List

namespace Token

variable {t : Token} (h : t.carries = true)
include h

theorem exists_text (hk : t.kind = .identifier ∨ t.kind = .quoted) :
    ∃ v, t.payload = some (.text v) := by
  unfold carries at h
  rcases hk with hk | hk <;> rw [hk] at h <;> dsimp only at h <;> split at h
  all_goals first
    | exact ⟨_, by assumption⟩
    | cases h

theorem exists_integer (hk : t.kind = .integer) : ∃ v, t.payload = some (.integer v) := by
  unfold carries at h
  rw [hk] at h
  dsimp only at h
  split at h
  · next v hv => exact ⟨v, hv⟩
  · cases h

theorem exists_real (hk : t.kind = .real) : ∃ v, t.payload = some (.real v) := by
  unfold carries at h
  rw [hk] at h
  dsimp only at h
  split at h
  · next v hv => exact ⟨v, hv⟩
  · cases h

end Token

/-- What is left of a text: tokens as the scanner makes them, then the end. -/
structure Ended (ts : List Token) (last : Token) : Prop where
  ended : last.kind = .endOfText
  carries : ∀ t ∈ ts, t.carries = true

theorem Ended.rest {us rest : List Token} {last : Token} (h : Ended (us ++ rest) last) :
    Ended rest last :=
  ⟨h.ended, fun t ht => h.carries t (mem_append_right us ht)⟩

variable {ts : List Token} {P : Token.Kind → Prop}

theorem Ended.exists_cons {last : Token} (h : Ended ts last)
    (hne : (Input.mk ts last).kind ≠ .endOfText) :
    ∃ t rest, ts = t :: rest ∧ t.carries = true ∧ Ended rest last := by
  cases ts with
  | nil => exact absurd h.ended hne
  | cons t rest =>
    have ht : t.carries = true := h.carries t mem_cons_self
    have hrest : Ended ([t] ++ rest) last := h
    exact ⟨t, rest, rfl, ht, hrest.rest⟩

/-- Before the given token, the reader takes only texts of the rule. -/
def ReadsAt {α : Type} (t : Token) (x : Parse α) (rule : List Token → α → Prop) : Prop :=
  ∀ ⦃ts last a i⦄, Ended ts last → (Input.mk ts last).current = t → x ⟨ts, last⟩ = .ok a i →
    ∃ us rest, ts = us ++ rest ∧ i = ⟨rest, last⟩ ∧ rule us a

/-- The reader takes only texts of the rule. -/
def Reads {α : Type} (x : Parse α) (rule : List Token → α → Prop) : Prop :=
  ∀ t, ReadsAt t x rule

/-- The reader takes every text of the rule, up to a length, that may end before what follows. -/
def Takes {α : Type} (n : Nat) (x : Parse α) (rule : List Token → α → Prop)
    (follow : List Token → Token.Kind → Prop) : Prop :=
  ∀ ⦃ts a⦄ rest last, ts.length ≤ n → rule ts a → follow ts (Input.mk rest last).kind →
    x ⟨ts ++ rest, last⟩ = .ok a ⟨rest, last⟩

section Steps

variable {α β : Type} {t : Token} {x : Parse α} {f : α → Parse β} {first : List Token → α → Prop}
  {rule : List Token → β → Prop}

theorem bind_of_ok {ε σ α β : Type} {x : EStateM ε σ α} {s s' : σ} {a : α} (h : x s = .ok a s')
    (f : α → EStateM ε σ β) : (x >>= f) s = f a s' := by
  change EStateM.bind x f s = f a s'
  unfold EStateM.bind
  rw [h]

theorem ReadsAt.bind (hx : ReadsAt t x first)
    (hf : ∀ us a, first us a → (∀ u vs, us = u :: vs → u = t) →
      Reads (f a) fun vs b => rule (us ++ vs) b) : ReadsAt t (x >>= f) rule := by
  intro ts last b i hts ht h
  obtain ⟨a, i₁, ha, h⟩ := bind_eq_ok h
  obtain ⟨us, rest, rfl, rfl, hfirst⟩ := hx hts ht ha
  have hhead : ∀ u vs, us = u :: vs → u = t := by
    rintro u vs rfl
    exact ht
  obtain ⟨vs, rest, rfl, rfl, hrule⟩ := hf us a hfirst hhead _ hts.rest rfl h
  exact ⟨us ++ vs, rest, (append_assoc us vs rest).symm, rfl, hrule⟩

theorem Reads.bind (hx : Reads x first)
    (hf : ∀ us a, first us a → Reads (f a) fun vs b => rule (us ++ vs) b) : Reads (x >>= f) rule :=
  fun t => (hx t).bind fun us a ha _ => hf us a ha

theorem Reads.mono {x : Parse β} {other : List Token → β → Prop} (hx : Reads x other)
    (h : ∀ us a, other us a → rule us a) : Reads x rule := by
  intro t ts last a i hts ht hok
  obtain ⟨us, rest, hsplit, hi, ha⟩ := hx t hts ht hok
  exact ⟨us, rest, hsplit, hi, h us a ha⟩

theorem Reads.pure {b : β} (h : rule [] b) : Reads (pure b) rule := by
  intro t ts last a i hts ht hok
  cases hok
  exact ⟨[], ts, rfl, rfl, h⟩

theorem Reads.map {g : α → β} (hx : Reads x first) (h : ∀ us a, first us a → rule us (g a)) :
    Reads (do return g (← x)) rule := by
  refine hx.bind fun us a ha => .pure ?_
  rw [append_nil]
  exact h us a ha

theorem Reads.throw (e : Fault) : Reads (throw e : Parse β) rule := fun _ _ _ _ _ _ _ h => nomatch h

theorem Reads.expected (what : String) : Reads (Parse.expected what : Parse β) rule :=
  fun _ _ _ _ _ _ _ h => nomatch h

theorem Reads.get {f : Input → Parse β} (h : ∀ i, Reads (f i) rule) :
    Reads (MonadState.get >>= f) rule :=
  fun t _ _ _ _ hts ht hok => h _ t hts ht hok

end Steps

/-- The text has a first token, and its kind is one of those. -/
def Starts (ts : List Token) (P : Token.Kind → Prop) : Prop := ∃ t us, ts = t :: us ∧ P t.kind

theorem Starts.append (h : Starts ts P) (us : List Token) : Starts (ts ++ us) P := by
  obtain ⟨t, vs, rfl, ht⟩ := h
  exact ⟨t, vs ++ us, rfl, ht⟩

theorem Starts.kind {ts : List Token} {P : Token.Kind → Prop} (h : Starts ts P)
    (rest : List Token) (last : Token) : P (Input.mk (ts ++ rest) last).kind := by
  obtain ⟨t, vs, rfl, ht⟩ := h
  exact ht

theorem starts_separated {α : Type} {separator : Token.Kind} {rule : List Token → α → Prop}
    (h : ∀ ts a, rule ts a → Starts ts P) {as : List α} (has : Separated separator rule ts as) :
    Starts ts P := by
  cases has with
  | one ha => exact h _ _ ha
  | more ha _ _ => exact (h _ _ ha).append _

namespace Parse

section Tokens

variable {β : Type} {i : Input} {t : Token} {ts : List Token} {last : Token} {k : Token.Kind}
  {rule : List Token → β → Prop}

theorem kind_bind (f : Token.Kind → Parse β) : (kind >>= f) i = f i.kind i := rfl

theorem kind_cons : (Input.mk (t :: ts) last).kind = t.kind := rfl

theorem position_bind (f : Position → Parse β) : (position >>= f) i = f i.position i := rfl

theorem advance_cons (f : Token → Parse β) : (advance >>= f) ⟨t :: ts, last⟩ = f t ⟨ts, last⟩ := rfl

theorem get_bind (f : Input → Parse β) : (get >>= f : Parse β) i = f i i := rfl

theorem expect_cons (h : t.kind = k) (what : String) :
    expect k what ⟨t :: ts, last⟩ = .ok t ⟨ts, last⟩ := by
  unfold expect
  rw [kind_bind, kind_cons, if_pos h]
  rfl

theorem identifier_cons {n : String} (h : t.Names n) (what : String) :
    identifier what ⟨t :: ts, last⟩ = .ok (n, t.position) ⟨ts, last⟩ := by
  unfold identifier
  rw [bind_of_ok (expect_cons h.1 what), h.2]
  rfl

theorem accept_cons (h : t.kind = k) : accept k ⟨t :: ts, last⟩ = .ok true ⟨ts, last⟩ := by
  unfold accept
  rw [kind_bind, kind_cons, if_pos h]
  rfl

theorem accept_of_ne (h : i.kind ≠ k) : accept k i = .ok false i := by
  unfold accept
  rw [kind_bind, if_neg h]
  rfl

theorem readsAt_kind {f : Token.Kind → Parse β} (h : ReadsAt t (f t.kind) rule) :
    ReadsAt t (kind >>= f) rule := by
  intro ts last a i hts ht hok
  cases ht
  exact h hts rfl hok

theorem readsAt_position {f : Position → Parse β} (h : ReadsAt t (f t.position) rule) :
    ReadsAt t (position >>= f) rule := by
  intro ts last a i hts ht hok
  cases ht
  exact h hts rfl hok

variable {what : String} {f : Token → Parse β}

theorem readsAt_advance (ht : t.kind = k) (hk : k ≠ .endOfText)
    (h : t.carries = true → Reads (f t) fun us b => rule (t :: us) b) :
    ReadsAt t (advance >>= f) rule := by
  intro ts last a i hts hcurrent hok
  cases hcurrent
  obtain ⟨t, rest, rfl, hcarries, hrest⟩ := hts.exists_cons fun hlast => hk (ht.symm.trans hlast)
  obtain ⟨us, rest, rfl, rfl, hrule⟩ := h hcarries _ hrest rfl hok
  exact ⟨t :: us, rest, rfl, rfl, hrule⟩

theorem readsAt_expect (hk : k ≠ .endOfText)
    (h : t.kind = k → t.carries = true → Reads (f t) fun us b => rule (t :: us) b) :
    ReadsAt t (expect k what >>= f) rule := by
  unfold expect
  rw [bind_assoc]
  refine readsAt_kind ?_
  split
  · next ht => exact readsAt_advance ht hk (h ht)
  · exact (Reads.expected _).bind (fun _ _ => False.elim) t

theorem reads_expect (hk : k ≠ .endOfText)
    (h : ∀ t, t.kind = k → t.carries = true → Reads (f t) fun us b => rule (t :: us) b) :
    Reads (expect k what >>= f) rule :=
  fun t => readsAt_expect hk (h t)

theorem readsAt_identifier {f : String × Position → Parse β}
    (h : ∀ n, t.Names n → Reads (f (n, t.position)) fun us b => rule (t :: us) b) :
    ReadsAt t (identifier what >>= f) rule := by
  unfold identifier
  rw [bind_assoc]
  refine readsAt_expect nofun fun ht hcarries => ?_
  obtain ⟨n, hn⟩ := Token.exists_text hcarries (.inl ht)
  rw [hn, pure_bind]
  exact h n ⟨ht, hn⟩

theorem reads_identifier {f : String × Position → Parse β}
    (h : ∀ t n, t.Names n → Reads (f (n, t.position)) fun us b => rule (t :: us) b) :
    Reads (identifier what >>= f) rule :=
  fun t => readsAt_identifier (h t)

theorem readsAt_accept {f : Bool → Parse β} (hk : k ≠ .endOfText)
    (htrue : t.kind = k → Reads (f true) fun us b => rule (t :: us) b)
    (hfalse : t.kind ≠ k → ReadsAt t (f false) rule) : ReadsAt t (accept k >>= f) rule := by
  unfold accept
  rw [bind_assoc]
  refine readsAt_kind ?_
  split
  · next ht =>
    rw [bind_assoc]
    refine readsAt_advance ht hk fun _ => ?_
    exact htrue ht
  · next ht =>
    exact hfalse ht

theorem reads_accept {f : Bool → Parse β} (hk : k ≠ .endOfText)
    (htrue : ∀ t, t.kind = k → Reads (f true) fun us b => rule (t :: us) b)
    (hfalse : Reads (f false) rule) : Reads (accept k >>= f) rule :=
  fun t => readsAt_accept hk (htrue t) fun _ => hfalse t

theorem reads_kind {f : Token.Kind → Parse β} (h : ∀ t, ReadsAt t (f t.kind) rule) :
    Reads (kind >>= f) rule :=
  fun t => readsAt_kind (h t)

end Tokens

section Lists

variable {α : Type} {separator : Token.Kind} {first item : Parse α} {rule : List Token → α → Prop}

theorem reads_more (hs : separator ≠ .endOfText) (hitem : Reads item rule) (n : Nat) :
    Reads (more separator item n) fun us as =>
      ∀ ts a, rule ts a → Separated separator rule (ts ++ us) (a :: as) := by
  have hone : ∀ ts a, rule ts a → Separated separator rule (ts ++ []) [a] := by
    intro ts a ha
    rw [append_nil]
    exact .one ha
  induction n with
  | zero => exact .pure hone
  | succ n ih =>
    refine reads_accept hs (fun t ht => ?_) (.pure hone)
    refine hitem.bind fun us a ha => ih.map fun vs as has ts b hb => ?_
    exact .more hb ht (has us a ha)

theorem reads_separated (hs : separator ≠ .endOfText) (hfirst : Reads first rule)
    (hitem : Reads item rule) : Reads (separated separator first item) (Separated separator rule) :=
  hfirst.bind fun us a ha => .get fun _ => (reads_more hs hitem _).map fun _ _ has => has us a ha

variable {follow : List Token → Token.Kind → Prop} {n : Nat}

theorem more_of_ne {i : Input} (h : i.kind ≠ separator) (m : Nat) :
    more separator item m i = .ok [] i := by
  cases m with
  | zero => rfl
  | succ m =>
    unfold more
    rw [bind_of_ok (accept_of_ne h)]
    rfl

theorem more_of_separated (hitem : Takes n item rule follow) (hsep : ∀ ts, follow ts separator)
    {as : List α} (h : Separated separator rule ts as) {t : Token} (ht : t.kind = separator)
    {rest : List Token} {last : Token} (hn : ts.length ≤ n)
    (hend : ∀ ts, follow ts (Input.mk rest last).kind)
    (hne : (Input.mk rest last).kind ≠ separator) {m : Nat} (hm : ts.length < m) :
    more separator item m ⟨t :: (ts ++ rest), last⟩ = .ok as ⟨rest, last⟩ := by
  induction h generalizing t m with
  | one ha =>
    obtain ⟨m, rfl⟩ := Nat.exists_eq_add_one_of_ne_zero (Nat.ne_zero_of_lt hm)
    unfold more
    rw [bind_of_ok (accept_cons ht), if_pos rfl, bind_of_ok (hitem rest last hn ha (hend _)),
      bind_of_ok (more_of_ne hne m)]
    rfl
  | @more ts u us a as ha hu _ ih =>
    obtain ⟨m, rfl⟩ := Nat.exists_eq_add_one_of_ne_zero (Nat.ne_zero_of_lt hm)
    rw [length_append, length_cons] at hn hm
    have hfollow : follow ts (Input.mk (u :: (us ++ rest)) last).kind := by
      rw [show (Input.mk (u :: (us ++ rest)) last).kind = separator from hu]
      exact hsep ts
    have hread := hitem (u :: (us ++ rest)) last (by omega) ha hfollow
    unfold more
    rw [append_assoc, cons_append, bind_of_ok (accept_cons ht), if_pos rfl,
      bind_of_ok hread, bind_of_ok (ih hu (by omega) (by omega))]
    rfl

/-- What follows a list must be able to follow each item, and must not be a separator. -/
theorem takes_separated (hfirst : Takes n first rule follow) (hitem : Takes n item rule follow)
    (hsep : ∀ ts, follow ts separator) :
    Takes n (separated separator first item) (Separated separator rule) fun _ k =>
      (∀ ts, follow ts k) ∧ k ≠ separator := by
  intro ts as rest last hn h hend
  unfold separated
  cases h with
  | one ha =>
    rw [bind_of_ok (hfirst rest last hn ha (hend.1 _)), get_bind, bind_of_ok (more_of_ne hend.2 _)]
    rfl
  | @more ts t us a as ha ht has =>
    rw [length_append, length_cons] at hn
    have hfollow : follow ts (Input.mk (t :: (us ++ rest)) last).kind := by
      rw [show (Input.mk (t :: (us ++ rest)) last).kind = separator from ht]
      exact hsep ts
    have hm : us.length < (t :: (us ++ rest)).length := by
      rw [length_cons, length_append]
      omega
    rw [append_assoc, cons_append,
      bind_of_ok (hfirst (t :: (us ++ rest)) last (by omega) ha hfollow), get_bind,
      bind_of_ok (more_of_separated hitem hsep has ht (by omega) hend.1 hend.2 hm)]
    rfl

end Lists

end Parse

end MiniPascal

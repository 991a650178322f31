import MiniPascal.Proofs.Rounds
import MiniPascal.Proofs.FatalFaults
import Mathlib.Data.List.Chain

/-!
# Reading comes to an end

Whatever the list of tokens, reading it ends, and it never gets past the first token that ends a
text. A run of the reader is written out as the states between its steps.
-/

namespace MiniPascal

open List

/-! ## Loops halt -/

namespace Recover

variable {β : Type}

def addTo (add : β → β) : EStateM.Result LexError Session β → EStateM.Result LexError Session β
  | .ok b s => .ok (add b) s
  | .error e s => .error e s

/-- A loop that comes to an end: round after round with fewer tokens left, up to one that leaves the
loop or fails. -/
inductive Halts (round : Recover (Option (β → β))) (done : β) :
    Session → EStateM.Result LexError Session β → Prop
  | leaves {s s' : Session} : round s = .ok none s' → Halts round done s (.ok done s')
  | fails {s s' : Session} {e : LexError} : round s = .error e s' →
      Halts round done s (.error e s')
  | goesOn {s s' : Session} {add : β → β} {r : EStateM.Result LexError Session β} :
      round s = .ok (some add) s' → s'.input.tokens.length < s.input.tokens.length →
      Halts round done s' r → Halts round done s (addTo add r)

theorem Loops.halts {round : Recover (Option (β → β))} {done : β} {loop : Recover β}
    (h : Loops round done loop) (s : Session) (hs : s.input.last.kind.isLast = true) :
    Halts round done s (loop s) := by
  induction hn : s.input.tokens.length using Nat.strong_induction_on generalizing s with
  | _ n ih =>
    rw [h.unrolls s hs]
    change Halts round done s (EStateM.bind round (again done loop) s)
    unfold EStateM.bind
    cases hround : round s with
    | error e s' => exact .fails hround
    | ok o s' =>
      cases o with
      | none => exact .leaves hround
      | some add =>
        have hlt := h.gains hs hround
        have hlast : s'.input.last.kind.isLast = true := (h.advances.of_ok hround).1.2.symm ▸ hs
        have hmap : again done loop (some add) s' = addTo add (loop s') := by
          change EStateM.map add loop s' = _
          unfold EStateM.map
          cases loop s' <;> rfl
        dsimp only
        rw [hmap]
        exact .goesOn hround hlt (ih _ (hn ▸ hlt) s' hlast rfl)

/-- The loops that recover from faults come to an end from the given state on. -/
structure LoopsHalt (s : Session) : Prop where
  statements : Halts (nextStatement Phrase.statement) [] s (statements Phrase.statement s)
  skipping : Halts nextPause () s (skipStatement s)
  consts : ∀ stops, Halts (nextDeclaration Parse.constDecl stops) [] s
    (declarations Parse.constDecl stops s.input.tokens.length s)
  vars : ∀ stops, Halts (nextDeclaration Parse.varDecl stops) [] s
    (declarations Parse.varDecl stops s.input.tokens.length s)
  subprograms : Halts nextSubprogram [] s (subprogramsWithin s.input.tokens.length s)

theorem loopsHalt (s : Session) (hs : s.input.last.kind.isLast = true) : LoopsHalt s where
  statements := loops_statements.halts s hs
  skipping := loops_skipStatement.halts s hs
  consts stops := (loops_declarations Parse.tidy_constDecl
    (eats_lift Parse.eats_constDecl) stops).halts s hs
  vars stops := (loops_declarations Parse.tidy_varDecl
    (eats_lift Parse.eats_varDecl) stops).halts s hs
  subprograms := loops_subprograms.halts s hs

end Recover

/-- The readers that call themselves come to an end from the given state on: any number of calls
that is greater than the number of tokens left gives the same, whatever stands for a further
call. -/
structure CallsEnd (s : Session) : Prop where
  items : ∀ {α : Type} (separator : Token.Kind) (item : Parse α), separator.isLast = false →
    Advances item → ∀ n rest, s.input.tokens.length < n →
      ((Parse.moreOver separator item)^[n] rest) s.input =
        Parse.more separator item s.input.tokens.length s.input
  chains : ∀ (tier : Nat) (operand : Parse Expr), Advances operand →
    ∀ n rest left, s.input.tokens.length < n →
      ((Parse.chainOver tier operand)^[n] rest) left s.input =
        Parse.chain tier operand s.input.tokens.length left s.input
  operands : ∀ n nested, s.input.tokens.length < n →
    (Parse.operandOver^[n] nested) s.input = Parse.operand s.input
  statements : ∀ n nested, s.input.tokens.length < n →
    (Phrase.statementOver^[n] nested) s = Phrase.statement s

theorem callsEnd (s : Session) (hs : s.input.last.kind.isLast = true) : CallsEnd s where
  items separator item hsep hitem _ rest hn :=
    settles id (fun x => x) (Parse.more separator item)
      (fun m r i hi => Parse.more_iterate hsep hitem m r i hi) ⟨hs, hn⟩ rest
  chains tier operand hoperand _ rest left hn :=
    settles id (fun x => x left) (fun m => Parse.chain tier operand m left)
      (fun m r i hi => Parse.chain_iterate hoperand tier m r left i hi) ⟨hs, hn⟩ rest
  operands _ nested hn :=
    settles id (fun x => x) (fun m => Parse.operandWithin (m + 1))
      (fun m r i hi => Parse.operand_iterate (m + 1) r i hi) ⟨hs, hn⟩ nested
  statements _ nested hn :=
    settles Session.input (fun x => x) (fun m => Phrase.statementWithin (m + 1))
      (fun m r u hu => Phrase.statement_iterate (m + 1) r u hu) ⟨hs, hn⟩ nested

/-! ## Runs, step by step -/

inductive Atom : {α : Type} → Phrase α → Prop
  | current : Atom Step.current
  | count : Atom Step.count
  | begins : Atom Step.begins
  | advance : Atom Step.advance
  | skip (stops : List Token.Kind) : Atom (Step.skip stops)
  | note (n : Note) : Atom (Step.note n)
  | refuse : Atom Step.refuse
  | giveUp {α : Type} (e : SyntaxError) : Atom (Step.giveUp e : Phrase α)

def after {α : Type} : EStateM.Result Fault Session α → Session
  | .ok _ s => s
  | .error _ s => s

/-- A run of a reader from a state to an outcome, with the states after its steps in order. -/
inductive Traced :
    {α : Type} → Phrase α → Session → EStateM.Result Fault Session α → List Session → Prop
  | pure {α : Type} (a : α) (s : Session) : Traced (pure a) s (.ok a s) []
  | step {α : Type} {x : Phrase α} (h : Atom x) (s : Session) : Traced x s (x s) [after (x s)]
  | next {α β : Type} {x : Phrase α} {f : α → Phrase β} {s s' : Session} {a : α}
      {r : EStateM.Result Fault Session β} {us vs : List Session} :
      Traced x s (.ok a s') us → Traced (f a) s' r vs → Traced (x >>= f) s r (us ++ vs)
  | stop {α β : Type} {x : Phrase α} {f : α → Phrase β} {s s' : Session} {e : Fault}
      {us : List Session} :
      Traced x s (.error e s') us → Traced (x >>= f) s (.error e s') us
  | done {α β : Type} {p : Phrase α} {f : Except Fault α → Phrase β} {s s' : Session} {a : α}
      {r : EStateM.Result Fault Session β} {us vs : List Session} :
      Traced p s (.ok a s') us → Traced (f (.ok a)) s' r vs →
      Traced (Step.attempt p >>= f) s r (us ++ vs)
  | recovered {α β : Type} {p : Phrase α} {f : Except Fault α → Phrase β} {s s' : Session}
      {e : SyntaxError} {r : EStateM.Result Fault Session β} {us vs : List Session} :
      Traced p s (.error (.phrase e) s') us → Traced (f (.error (.phrase e))) s' r vs →
      Traced (Step.attempt p >>= f) s r (us ++ vs)
  | fatal {α β : Type} {p : Phrase α} {f : Except Fault α → Phrase β} {s s' : Session}
      {e : LexError} {us : List Session} :
      Traced p s (.error (.lexical e) s') us →
      f (.error (.lexical e)) s' = .error (.lexical e) s' →
      Traced (Step.attempt p >>= f) s (.error (.lexical e) s') us

variable {α : Type} {x : Phrase α}

theorem Made.traced (h : Made x) (s : Session) : ∃ trace, Traced x s (x s) trace := by
  induction h generalizing s with
  | pure a => exact ⟨[], .pure a s⟩
  | current => exact ⟨_, .step .current s⟩
  | count => exact ⟨_, .step .count s⟩
  | begins => exact ⟨_, .step .begins s⟩
  | advance => exact ⟨_, .step .advance s⟩
  | skip stops => exact ⟨_, .step (.skip stops) s⟩
  | note n => exact ⟨_, .step (.note n) s⟩
  | refuse => exact ⟨_, .step .refuse s⟩
  | giveUp e => exact ⟨_, .step (.giveUp e) s⟩
  | @bind _ _ x f _ _ ihx ihf =>
    obtain ⟨us, hus⟩ := ihx s
    cases hx : x s with
    | ok a s' =>
      obtain ⟨vs, hvs⟩ := ihf a s'
      rw [bind_of_ok hx]
      exact ⟨us ++ vs, .next (hx ▸ hus) hvs⟩
    | error e s' =>
      rw [bind_of_error hx]
      exact ⟨us, .stop (hx ▸ hus)⟩
  | @attempt _ _ p f _ _ _ hlexical ihp ihok ihphrase =>
    obtain ⟨us, hus⟩ := ihp s
    cases hp : p s with
    | ok a s' =>
      obtain ⟨vs, hvs⟩ := ihok a s'
      rw [attempt_bind_ok hp]
      exact ⟨us ++ vs, .done (hp ▸ hus) hvs⟩
    | error e s' =>
      rw [attempt_bind_error hp]
      cases e with
      | phrase e =>
        obtain ⟨vs, hvs⟩ := ihphrase e s'
        exact ⟨us ++ vs, .recovered (hp ▸ hus) hvs⟩
      | lexical e =>
        rw [hlexical e s']
        exact ⟨us, .fatal (hp ▸ hus) (hlexical e s')⟩

theorem Atom.made (h : Atom x) : Made x := by
  cases h with
  | current => exact .current
  | count => exact .count
  | begins => exact .begins
  | advance => exact .advance
  | skip stops => exact .skip stops
  | note n => exact .note n
  | refuse => exact .refuse
  | giveUp e => exact .giveUp e

theorem Atom.after_le (h : Atom x) (s : Session) : after (x s) ≤ s := by
  have hle := h.made.advances s
  cases hx : x s <;> rw [hx] at hle <;> exact hle

instance : IsTrans Session fun s s' => s' ≤ s := ⟨fun _ _ _ h h' => le_trans h' h⟩

theorem isChain_append {s s' : Session} {us vs : List Session}
    (hus : (s :: us).IsChain fun s s' => s' ≤ s) (hend : (s :: us).getLast? = some s')
    (hvs : (s' :: vs).IsChain fun s s' => s' ≤ s) :
    (s :: (us ++ vs)).IsChain fun s s' => s' ≤ s := by
  rw [← cons_append, List.isChain_append]
  refine ⟨hus, hvs.tail, fun u hu v hv => ?_⟩
  rw [hend] at hu
  cases hu
  exact (isChain_cons.mp hvs).1 v hv

theorem getLast?_append {s s' s'' : Session} {us vs : List Session}
    (hus : (s :: us).getLast? = some s') (hvs : (s' :: vs).getLast? = some s'') :
    (s :: (us ++ vs)).getLast? = some s'' := by
  rw [← cons_append, List.getLast?_append]
  cases vs with
  | nil =>
    cases hvs
    simpa using hus
  | cons v vs => simpa using hvs

theorem Traced.isChain {s : Session} {r : EStateM.Result Fault Session α} {trace : List Session}
    (h : Traced x s r trace) :
    (s :: trace).IsChain (fun s s' => s' ≤ s) ∧ (s :: trace).getLast? = some (after r) := by
  induction h with
  | pure a s => exact ⟨.singleton s, rfl⟩
  | step h s => exact ⟨isChain_pair.mpr (h.after_le s), rfl⟩
  | next _ _ ihx ihf | done _ _ ihx ihf | recovered _ _ ihx ihf =>
    exact ⟨isChain_append ihx.1 ihx.2 ihf.1, getLast?_append ihx.2 ihf.2⟩
  | stop _ ih | fatal _ _ ih => exact ih

/-! ## Places in a list of tokens -/

/-- A list of tokens with an end behind it, unless it has one. -/
def sealed (tokens : List Token) : List Token :=
  if tokens.getLast?.any fun t => t.kind.isLast then tokens
  else tokens ++ [⟨.endOfText, "", (tokens.getLast?.map Token.position).getD .start, none⟩]

/-- The beginning `taken` of a list was read up to a state, which goes on with the token behind. -/
structure Taken (tokens : List Token) (i : Input) (taken : List Token) : Prop where
  within : i ≤ .ofTokens tokens
  append : taken ++ i.tokens = (Input.ofTokens tokens).tokens
  isPrefix : taken <+: sealed tokens
  current : (sealed tokens)[taken.length]? = some i.current
  length_le : taken.length ≤ (sealed tokens).findIdx fun t => t.kind.isLast

section Places

variable (tokens : List Token)

theorem Input.ofTokens_not_isLast {t : Token} (ht : t ∈ (Input.ofTokens tokens).tokens) :
    t.kind.isLast = false := by
  have hbefore := mem_takeWhile_imp ht
  simpa using hbefore

/-- What is read of a list is its part before the first token that ends a text, and that token. -/
theorem exists_sealed_eq : ∃ rest, sealed tokens =
    (Input.ofTokens tokens).tokens ++ (Input.ofTokens tokens).last :: rest := by
  cases hfind : tokens.find? fun t => t.kind.isLast with
  | some t =>
    obtain ⟨hlast, before, rest, rfl, hbefore⟩ := find?_eq_some_iff_append.mp hfind
    have hread : Input.ofTokens (before ++ t :: rest) = ⟨before, t⟩ := by
      have htake : (before ++ t :: rest).takeWhile (fun t => !t.kind.isLast) = before := by
        rw [takeWhile_append_of_pos hbefore]
        simp [hlast]
      unfold Input.ofTokens
      rw [hfind, htake]
    rw [hread]
    unfold sealed
    split
    · exact ⟨rest, rfl⟩
    · exact ⟨_, append_assoc before (t :: rest) _⟩
  | none =>
    have hall : ∀ t ∈ tokens, t.kind.isLast = false := by
      simpa using hfind
    have htake : tokens.takeWhile (fun t => !t.kind.isLast) = tokens :=
      takeWhile_eq_self_iff.mpr fun t ht => by simp [hall t ht]
    have hopen : ¬ (tokens.getLast?.any fun t => t.kind.isLast) = true := by
      cases hend : tokens.getLast? with
      | none => simp
      | some t => simp [hall t (mem_of_getLast? hend)]
    refine ⟨[], ?_⟩
    unfold sealed Input.ofTokens
    rw [if_neg hopen, htake, hfind]

theorem findIdx_sealed :
    (sealed tokens).findIdx (fun t => t.kind.isLast) = (Input.ofTokens tokens).tokens.length := by
  obtain ⟨rest, heq⟩ := exists_sealed_eq tokens
  have hbefore : (Input.ofTokens tokens).tokens.findIdx (fun t => t.kind.isLast) =
      (Input.ofTokens tokens).tokens.length :=
    findIdx_eq_length.mpr fun t ht => Input.ofTokens_not_isLast tokens ht
  rw [heq, findIdx_append, if_neg (by omega), findIdx_cons,
    Input.ofTokens_isLast tokens]
  simp

theorem taken_of_append {i : Input} {taken : List Token} (h : i ≤ .ofTokens tokens)
    (happend : taken ++ i.tokens = (Input.ofTokens tokens).tokens) : Taken tokens i taken := by
  obtain ⟨rest, heq⟩ := exists_sealed_eq tokens
  rw [← happend, append_assoc, ← h.2] at heq
  refine ⟨h, happend, ⟨_, heq.symm⟩, ?_, ?_⟩
  · rw [heq, getElem?_append_right (Nat.le_refl _)]
    unfold Input.current
    cases i.tokens with
    | nil | cons t ts => simp
  · rw [findIdx_sealed, ← happend, length_append]
    exact Nat.le_add_right ..

/-- States that only get on have taken more and more of the list. -/
theorem exists_taken {s : Session} {trace : List Session} {taken : List Token}
    (hchain : (s :: trace).IsChain fun s s' => s' ≤ s) (hs : s.input ≤ .ofTokens tokens)
    (happend : taken ++ s.input.tokens = (Input.ofTokens tokens).tokens) :
    ∃ takens, (taken :: takens).IsChain (· <+: ·) ∧
      Forall₂ (fun s taken => Taken tokens s.input taken) trace takens := by
  induction trace generalizing s taken with
  | nil => exact ⟨[], .singleton _, .nil⟩
  | cons s' trace ih =>
    obtain ⟨hle, hchain⟩ := isChain_cons_cons.mp hchain
    obtain ⟨us, hus⟩ := hle.1.1
    have hs' : s'.input ≤ .ofTokens tokens := le_trans hle.1 hs
    have happend' : (taken ++ us) ++ s'.input.tokens = (Input.ofTokens tokens).tokens := by
      rw [append_assoc, hus, happend]
    obtain ⟨takens, htakens, hall⟩ := ih hchain hs' happend'
    exact ⟨(taken ++ us) :: takens, isChain_cons_cons.mpr ⟨prefix_append .., htakens⟩,
      .cons (taken_of_append tokens hs' happend') hall⟩

end Places

/-- From every state within a list of tokens the readers that call themselves and the loops come to
an end, and each round of a loop that goes on leaves fewer tokens. The whole reading is a run whose
states have taken more and more of the list, and nothing behind the first token that ends a text. -/
theorem reading_halts (tokens : List Token) :
    (∀ s : Session, s.input ≤ .ofTokens tokens → CallsEnd s ∧ Recover.LoopsHalt s) ∧
    ∃ trace takens, Traced (liftM Recover.program : Phrase Program) ⟨.ofTokens tokens, []⟩
        ((liftM Recover.program : Phrase Program) ⟨.ofTokens tokens, []⟩) trace ∧
      ([] :: takens).IsChain (· <+: ·) ∧
      Forall₂ (fun s taken => Taken tokens s.input taken) trace takens := by
  constructor
  · intro s hs
    have hlast : s.input.last.kind.isLast = true := hs.2.symm ▸ Input.ofTokens_isLast tokens
    exact ⟨callsEnd s hlast, Recover.loopsHalt s hlast⟩
  · obtain ⟨trace, htrace⟩ := Recover.built_program.traced ⟨.ofTokens tokens, []⟩
    obtain ⟨takens, htakens, hall⟩ := exists_taken tokens htrace.isChain.1 le_rfl (nil_append _)
    exact ⟨trace, takens, htrace, htakens, hall⟩

end MiniPascal

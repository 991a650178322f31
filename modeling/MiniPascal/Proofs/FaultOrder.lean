import MiniPascal.Proofs.Confined
import MiniPascal.Proofs.FatalFaults
import MiniPascal.Proofs.TokenOrder

/-!
# Faults are found in reading order

Each fault is blamed on a token at or behind the one where reading went on after the fault before.
-/

namespace MiniPascal

open List

/-- The fault that is found between two inputs: the current token was not expected, or the part that
was read is not what it should be. -/
inductive Finds : Input → Input → SyntaxFault → Prop
  | expected (what : String) (i : Input) : Finds i i (.expected what i.current)
  | examined {β : Type} {p : Parse β} {fault? : Token → β → Option SyntaxFault} {i i' : Input}
      {b : β} {e : SyntaxFault} : Examined p fault? → p i = .ok b i' →
      fault? i.current b = some e → Finds i i' e

/-- The way from one input to another past some faults. Each of them is found between two inputs on
the way and blamed on the first token there, and the way goes on from the second. -/
inductive Trail : Input → Input → List SyntaxError → Prop
  | nil {i i' : Input} : i' ≤ i → Trail i i' []
  | cons {i j k i' : Input} {e : SyntaxFault} {es : List SyntaxError} : j ≤ i → k ≤ j →
      Finds j k e → Trail k i' es → Trail i i' (⟨e, j.position⟩ :: es)

namespace Trail

variable {i j k : Input} {es fs : List SyntaxError}

theorem le (h : Trail i j es) : j ≤ i := by
  induction h with
  | nil hle => exact hle
  | cons hj hk _ _ ih => exact ih.trans (hk.trans hj)

theorem of_le (hle : j ≤ i) (h : Trail j k es) : Trail i k es := by
  cases h with
  | nil hk => exact .nil (hk.trans hle)
  | cons hj hk hfinds hrest => exact .cons (hj.trans hle) hk hfinds hrest

theorem append (h : Trail i j es) (h' : Trail j k fs) : Trail i k (es ++ fs) := by
  induction h with
  | nil hle => exact h'.of_le hle
  | cons hj hk hfinds _ ih => exact .cons hj hk hfinds (ih h')

theorem single {e : SyntaxFault} (hle : j ≤ i) (h : Finds i j e) : Trail i j [⟨e, i.position⟩] :=
  .cons (le_refl i) hle h (.nil (le_refl j))

end Trail

/-- A session goes on to another one: notes were added, and the faults among them, followed by the
given ones, lie on the way. -/
def Leads (s s' : Session) (es : List SyntaxError) : Prop :=
  ∃ more, s'.notes = s.notes ++ more ∧
    Trail s.input s'.input (more.filterMap Note.error? ++ es)

namespace Leads

variable {s u v : Session} {e : SyntaxError} {es : List SyntaxError}

theorem of_trail {i : Input} (h : Trail s.input i es) : Leads s { s with input := i } es :=
  ⟨[], (append_nil _).symm, h⟩

theorem refl (s : Session) : Leads s s [] := of_trail (.nil (le_refl s.input))

theorem trans (h : Leads s u []) (h' : Leads u v es) : Leads s v es := by
  obtain ⟨more, hnotes, htrail⟩ := h
  obtain ⟨more', hnotes', htrail'⟩ := h'
  refine ⟨more ++ more', ?_, ?_⟩
  · rw [hnotes', hnotes, append_assoc]
  · rw [append_nil] at htrail
    rw [filterMap_append, append_assoc]
    exact htrail.append htrail'

theorem noted (h : Leads s u [e]) : Leads s { u with notes := u.notes ++ [.fault e] } [] := by
  obtain ⟨more, hnotes, htrail⟩ := h
  refine ⟨more ++ [.fault e], ?_, ?_⟩
  · simp [hnotes]
  · simpa [Note.error?] using htrail

theorem resumed (s : Session) (p : Position) :
    Leads s { s with notes := s.notes ++ [.resumed p] } [] :=
  ⟨[.resumed p], rfl, .nil (le_refl s.input)⟩

end Leads

section Tracks

variable {α β : Type}

/-- An outcome that is reached from a session with all faults in order. The fault that a reader
gives up with comes last. -/
def Reached (s : Session) : EStateM.Result Fault Session α → Prop
  | .ok _ s' => Leads s s' []
  | .error (.phrase e) s' => Leads s s' [e]
  | .error (.lexical _) _ => True

theorem Reached.after {s u : Session} {r : EStateM.Result Fault Session α} (hlead : Leads s u [])
    (h : Reached u r) : Reached s r := by
  cases r with
  | ok a s' => exact hlead.trans h
  | error e s' =>
    cases e with
    | lexical e => trivial
    | phrase e => exact hlead.trans h

theorem Reached.of_error {s s' : Session} {e : Fault}
    (h : Reached s (.error e s' : EStateM.Result Fault Session α)) :
    Reached s (.error e s' : EStateM.Result Fault Session β) := by
  cases e with
  | lexical e => trivial
  | phrase e => exact h

/-- The reader finds its faults in order, wherever it begins. -/
def Tracks (x : Phrase α) : Prop := ∀ s, Reached s (x s)

theorem Tracks.bind {x : Phrase α} {f : α → Phrase β} (hx : Tracks x) (hf : ∀ a, Tracks (f a)) :
    Tracks (x >>= f) := by
  intro s
  have hfirst := hx s
  cases hrun : x s with
  | ok a u =>
    rw [hrun] at hfirst
    rw [bind_of_ok hrun]
    exact (hf a u).after hfirst
  | error e u =>
    rw [hrun] at hfirst
    rw [bind_of_error hrun]
    exact hfirst.of_error

theorem Tracks.attempt {p : Phrase α} {f : Except Fault α → Phrase β} {g : SyntaxError → Phrase β}
    (hp : Tracks p) (hok : ∀ a, Tracks (f (.ok a)))
    (hphrase : ∀ e, f (.error (.phrase e)) = Step.note (.fault e) >>= fun _ => g e)
    (hg : ∀ e, Tracks (g e)) (hlexical : ∀ e s, f (.error (.lexical e)) s = .error (.lexical e) s) :
    Tracks (Step.attempt p >>= f) := by
  intro s
  have hfirst := hp s
  cases hrun : p s with
  | ok a u =>
    rw [hrun] at hfirst
    rw [attempt_bind_ok hrun]
    exact (hok a u).after hfirst
  | error e u =>
    rw [hrun] at hfirst
    rw [attempt_bind_error hrun]
    cases e with
    | lexical e =>
      rw [hlexical]
      trivial
    | phrase e =>
      rw [hphrase]
      exact (hg e _).after hfirst.noted

/-- A part that is examined after it was read is blamed on the token that it begins with. No fault
was noted since then. -/
theorem Tracks.examined {p : Parse β} {fault? : Token → β → Option SyntaxFault}
    {f : Token → β → Phrase α} (hexamined : Examined p fault?) (hp : Tracks (liftM p : Phrase β))
    (hfault : ∀ t b e, fault? t b = some e → f t b = Step.giveUp ⟨e, t.position⟩)
    (hf : ∀ t b, fault? t b = none → Tracks (f t b)) :
    Tracks (Step.current >>= fun t => (liftM p : Phrase β) >>= f t) := by
  intro s
  have hpart := hp s
  change Reached s ((liftM p >>= f s.input.current) s)
  cases hrun : p s.input with
  | error e i' =>
    have hlift := Parse.lift_of_error hrun s.notes
    rw [hlift] at hpart
    rw [bind_of_error hlift]
    exact hpart.of_error
  | ok b i' =>
    have hlift := Parse.lift_of_ok hrun s.notes
    rw [hlift] at hpart
    rw [bind_of_ok hlift]
    cases hwrong : fault? s.input.current b with
    | none => exact (hf _ b hwrong _).after hpart
    | some e =>
      rw [hfault _ b e hwrong]
      have hle : i' ≤ s.input := by
        obtain ⟨more, -, htrail⟩ := hpart
        exact htrail.le
      exact .of_trail (.single hle (.examined hexamined hrun hwrong))

theorem Orderly.tracks {x : Phrase α} (h : Orderly x) : Tracks x := by
  induction h with
  | pure a => exact fun s => .refl s
  | bind _ _ hx hf => exact hx.bind hf
  | current | count | begins => exact fun s => .refl s
  | advance => exact fun s => .of_trail (.nil ⟨tail_suffix _, rfl⟩)
  | skip stops => exact fun s => .of_trail (.nil ⟨dropWhile_suffix _, rfl⟩)
  | resumed p => exact fun s => .resumed s p
  | refuse =>
    intro s
    rw [refuse_apply]
    split
    · trivial
    · exact .refl s
  | noteHere what =>
    exact fun s => Leads.noted (.of_trail (.single (le_refl _) (.expected what s.input)))
  | giveUpHere what =>
    exact fun s => .of_trail (.single (le_refl _) (.expected what s.input))
  | examined hexamined _ hfault _ hp hf => exact hp.examined hexamined hfault hf
  | attempt _ _ hphrase _ hlexical hp hok hg => exact hp.attempt hok hphrase hg hlexical

end Tracks

theorem Parse.trail_of_error {α : Type} {x : Parse α} (hx : Tidy x) {i i' : Input}
    {e : SyntaxError} (h : x i = .error (.phrase e) i') : Trail i i' [e] := by
  have hreached := hx.tracks ⟨i, []⟩
  rw [Parse.lift_of_error h []] at hreached
  obtain ⟨more, hnotes, htrail⟩ := hreached
  obtain rfl : more = [] := hnotes.symm
  exact htrail

/-- The tokens that are left, and the one that ends the text, stand in order. -/
def Input.InOrder (i : Input) : Prop :=
  (i.tokens ++ [i.last]).Pairwise fun t u => t.position.Before u.position

namespace Input

variable {i j : Input}

theorem current_mem (i : Input) : i.current ∈ i.tokens ++ [i.last] := by
  obtain ⟨ts, last⟩ := i
  cases ts <;> simp [current]

theorem suffix_of_le (h : j ≤ i) : j.tokens ++ [j.last] <:+ i.tokens ++ [i.last] := by
  obtain ⟨⟨us, hus⟩, hlast⟩ := h
  exact ⟨us, by rw [← hus, hlast, append_assoc]⟩

theorem InOrder.of_le (h : i.InOrder) (hle : j ≤ i) : j.InOrder :=
  h.sublist (suffix_of_le hle).sublist

theorem InOrder.position_le (h : i.InOrder) (hle : j ≤ i) : i.position.le j.position = true := by
  have hmem := (suffix_of_le hle).subset j.current_mem
  obtain ⟨ts, last⟩ := i
  cases ts with
  | nil =>
    rw [position, position, mem_singleton.mp hmem]
    exact Position.le_refl _
  | cons t ts =>
    rcases mem_cons.mp hmem with heq | hmem
    · rw [position, position, heq]
      exact Position.le_refl _
    · exact ((pairwise_cons.mp h).1 _ hmem).le

end Input

variable {es : List SyntaxError}

/-- Faults on the way from an input stand in order, behind its current token, and each at one of the
tokens that are left. -/
theorem Trail.ordered {i i' : Input} (h : Trail i i' es) (hi : i.InOrder) :
    es.Pairwise (fun d e => d.position.le e.position = true) ∧
    ∀ e ∈ es, i.position.le e.position = true ∧
      ∃ t ∈ i.tokens ++ [i.last], t.position = e.position := by
  induction h with
  | nil _ => simp
  | @cons i j k i' e es hj hk _ _ ih =>
    obtain ⟨hsorted, hplaces⟩ := ih ((hi.of_le hj).of_le hk)
    have hbehind := (hi.of_le hj).position_le hk
    constructor
    · refine pairwise_cons.mpr ⟨fun d hd => ?_, hsorted⟩
      exact Position.le_trans hbehind (hplaces d hd).1
    · intro d hd
      rcases mem_cons.mp hd with rfl | hd
      · refine ⟨hi.position_le hj, j.current, ?_, rfl⟩
        exact (Input.suffix_of_le hj).subset j.current_mem
      · obtain ⟨hle, t, ht, hplace⟩ := hplaces d hd
        have hfirst := Position.le_trans (hi.position_le hj) hbehind
        refine ⟨Position.le_trans hfirst hle, t, ?_, hplace⟩
        exact (Input.suffix_of_le (hk.trans hj)).subset ht

theorem scan_inOrder {source : String} {ts : List Token} {last : Token}
    (h : scan source = ts ++ [last]) : Input.InOrder ⟨ts, last⟩ := by
  unfold Input.InOrder
  rw [← h]
  exact (scanFrom_ordered _ _).2

/-- The faults of a text that is read are noted in the order of their places, each at a token of the
text. So the messages about them are in order without sorting. -/
theorem faults_in_order (source : String) {p : Program} {es : List SyntaxError}
    (h : parse (scan source) = .ok (p, es)) :
    es.Pairwise (fun d e => d.position.le e.position = true) ∧
    (∀ e ∈ es, ∃ t ∈ scan source, t.position = e.position) ∧
    Diagnostic.sort (es.map Diagnostic.ofSyntaxError) = es.map Diagnostic.ofSyntaxError := by
  obtain ⟨ts, last, hscan, hlast, hts⟩ := scan_ended source
  obtain ⟨s, hrun, rfl⟩ := program_of_parse h
  rw [hscan, Input.ofTokens_ended hts hlast] at hrun
  have hreached := Recover.tidy_program.tracks ⟨⟨ts, last⟩, []⟩
  rw [Recover.lift_of_ok hrun] at hreached
  obtain ⟨more, hnotes, htrail⟩ := hreached
  rw [List.append_nil] at htrail
  rw [show s.notes = more from hnotes]
  obtain ⟨hsorted, hplaces⟩ := htrail.ordered (scan_inOrder hscan)
  refine ⟨hsorted, fun e he => ?_, ?_⟩
  · obtain ⟨-, t, ht, hplace⟩ := hplaces e he
    exact ⟨t, hscan ▸ ht, hplace⟩
  · exact List.mergeSort_of_pairwise (List.pairwise_map.mpr hsorted)

/-- A text with a fault in each kind of phrase that reading recovers from. The second one is found
when the reader stands behind the bounds. -/
def faultySource : String :=
  "program p; const a = ; var x : array [5 .. 1] of integer; y integer; begin x := ; if y end."

theorem faultySource_in_order : ∃ p es, parse (scan faultySource) = .ok (p, es) ∧ es.length = 5 ∧
    es.Pairwise (fun d e => d.position.le e.position = true) ∧
    (∀ e ∈ es, ∃ t ∈ scan faultySource, t.position = e.position) ∧
    Diagnostic.sort (es.map Diagnostic.ofSyntaxError) = es.map Diagnostic.ofSyntaxError := by
  have hread : (parse (scan faultySource)).toOption.map (·.2.length) = some 5 := by
    have hchars : faultySource = String.ofList _ := rfl
    rw [hchars, scan_ofList]
    decide +kernel
  cases h : parse (scan faultySource) with
  | error e => simp [h, Except.toOption] at hread
  | ok r => exact ⟨r.1, r.2, rfl, by simpa [h, Except.toOption] using hread, faults_in_order _ h⟩

end MiniPascal

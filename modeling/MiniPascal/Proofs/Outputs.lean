import MiniPascal.Command.Run
import MiniPascal.Proofs.FileTrees
import MiniPascal.Proofs.PrintableOutput

/-!
# What several inputs leave in their outputs

Inputs are compiled one after the other, and each output is written beside its input. Nothing is
lost exactly if inputs that share a place for their outputs are compiled to the same text.
-/

namespace MiniPascal.Command

open FileTree List

/-! ## Texts in C are no sources -/

variable {u : FileTree} {source text : String} {level : Nat}

theorem head_of_compile (h : compile source level = .ok text) : ∃ cs, text.toList = '#' :: cs := by
  obtain ⟨p, q, _, _, rfl⟩ := compile_eq_ok h
  rw [C.toList_text]
  exact ⟨_, rfl⟩

theorem scan_numberSign {cs : List Char} (h : text.toList = '#' :: cs) :
    ∃ t, scan text = [t] ∧ t.kind = .invalid := by
  have hgap : Gap.skip .between .start ('#' :: cs) = .reached .start ('#' :: cs) := by
    cases cs <;> rfl
  unfold scan
  rw [h, scanFrom]
  split
  · next hskip => cases hgap.symm.trans hskip
  · next hskip => cases hgap.symm.trans hskip
  · next q c rest hskip =>
    obtain ⟨rfl, hrest⟩ := Gap.Ending.reached.inj (hgap.symm.trans hskip)
    obtain ⟨rfl, rfl⟩ := List.cons.inj hrest
    have hinvalid : (Lexeme.read '#' cs).kind = .invalid := rfl
    rw [if_pos hinvalid]
    exact ⟨_, rfl, hinvalid⟩

theorem compile_compiled (h : compile source level = .ok text) {level' : Nat} {text' : String} :
    compile text level' ≠ .ok text' := by
  intro hcompile
  obtain ⟨cs, hcs⟩ := head_of_compile h
  obtain ⟨bad, hscan, hinvalid⟩ := scan_numberSign hcs
  obtain ⟨p, q, hparse, _⟩ := compile_eq_ok hcompile
  obtain ⟨ts, hts, htext⟩ := exists_programText hparse
  cases htext with
  | @intro hs cs vs ss bs dot _ _ _ _ _ _ _ _ _ _ _ _ _ hdot =>
    -- a program ends in a dot, and the one token of the text is none
    have hmem : dot ∈ scan text := hts dot (by simp)
    rw [hscan, mem_singleton] at hmem
    rw [hmem, hinvalid] at hdot
    cases hdot

/-! ## Runs -/

/-- What an input is compiled to in the state of a tree. -/
def Compiled (level : Nat) (t : FileTree) (input text : String) : Prop :=
  ∃ source, t.read input = .ok source ∧ compile source level = .ok text

variable {t : FileTree} {o : Options} {input : String} {job : Job}

theorem Compiled.unique {text' : String} (h : Compiled level t input text)
    (h' : Compiled level t input text') : text = text' := by
  obtain ⟨source, hread, hcompile⟩ := h
  obtain ⟨source', hread', hcompile'⟩ := h'
  obtain rfl := Except.ok.inj (hread.symm.trans hread')
  exact Except.ok.inj (hcompile.symm.trans hcompile')

/-- Jobs that are all done, one after the other. -/
inductive Runs (level : Nat) : FileTree → List Job → FileTree → Prop
  | nil {t : FileTree} : Runs level t [] t
  | cons {t u v : FileTree} {job : Job} {rest : List Job} {text : String}
      (compiled : Compiled level t job.input text) (written : t.write job.output text = .ok u)
      (runs : Runs level u rest v) : Runs level t (job :: rest) v

theorem run_read (t : FileTree) (path : String) : (access.read path).run t = (t.read path, t) := rfl

theorem run_write (t : FileTree) (path text : String) :
    (access.write path text).run t = match t.write path text with
      | .ok u => (.ok (), u)
      | .error e => (.error e, t) := by
  have hrun : (access.write path text).run t = (match t.write path text with
      | .ok u => (do set u; return .ok () : StateM FileTree (Except FileError Unit))
      | .error e => return .error e).run t := rfl
  rw [hrun]
  cases t.write path text <;> rfl

theorem run_runJob (level : Nat) (job : Job) (t : FileTree) :
    (runJob access level job).run t = match t.read job.input with
      | .error e => (some (fileFailure job.input job.input e), t)
      | .ok source =>
        match compile source level with
        | .error e => (some (report job.input source e), t)
        | .ok text =>
          match t.write job.output text with
          | .error e => (some (fileFailure job.input job.output e), t)
          | .ok u => (none, u) := by
  rw [runJob, StateT.run_bind, run_read]
  cases t.read job.input with
  | error e => rfl
  | ok source =>
    change (match compile source level with
      | .error e => _
      | .ok text => access.write job.output text >>= _ : StateM FileTree (Option String)).run t = _
    dsimp only
    cases compile source level with
    | error e => rfl
    | ok text =>
      dsimp only
      rw [StateT.run_bind, run_write]
      cases t.write job.output text <;> rfl

theorem runJob_eq_none (h : (runJob access level job).run t = (none, u)) :
    ∃ text, Compiled level t job.input text ∧ t.write job.output text = .ok u := by
  rw [run_runJob] at h
  split at h
  · cases h
  · next source hread =>
    split at h
    · cases h
    · next text hcompile =>
      split at h
      · cases h
      · next hwrite =>
        cases h
        exact ⟨text, ⟨source, hread, hcompile⟩, hwrite⟩

theorem run_runJobs_cons (level : Nat) (job : Job) (rest : List Job) (t : FileTree) :
    (runJobs access level (job :: rest)).run t = let first := (runJob access level job).run t
      let others := (runJobs access level rest).run first.2
      (first.1.toList ++ others.1, others.2) := rfl

theorem runs_of_runJobs {jobs : List Job} (h : (runJobs access level jobs).run t = ([], u)) :
    Runs level t jobs u := by
  induction jobs generalizing t with
  | nil =>
    cases h
    exact .nil
  | cons job rest ih =>
    rw [run_runJobs_cons] at h
    obtain ⟨hfailures, hu⟩ := Prod.mk.inj h
    obtain ⟨hfirst, hothers⟩ := append_eq_nil_iff.mp hfailures
    cases hjob : (runJob access level job).run t with
    | mk failure v =>
      rw [hjob] at hfirst hothers hu
      cases failure with
      | some message => cases hfirst
      | none =>
        obtain ⟨text, hcompiled, hwritten⟩ := runJob_eq_none hjob
        exact .cons hcompiled hwritten (ih (Prod.ext hothers hu))

/-! ## What a run leaves -/

/-- A tree in which some files were replaced by texts that the compiler has written, or made with
them. -/
structure Overwritten (t u : FileTree) : Prop where
  directories : SameDirectories u t
  entries : ∀ l, u.find? l = t.find? l ∨
    ∃ source level text, compile source level = .ok text ∧ u.find? l = some (.file text.toUTF8)

theorem Overwritten.refl (t : FileTree) : Overwritten t t := ⟨fun _ => Iff.rfl, fun _ => .inl rfl⟩

theorem Overwritten.compiled (h : Overwritten t u) (hcompiled : Compiled level u input text) :
    Compiled level t input text := by
  obtain ⟨source, hread, hcompile⟩ := hcompiled
  obtain ⟨p, bytes, ⟨hlocate, hentry, hslash⟩, hbytes⟩ := read_eq_ok.mp hread
  refine ⟨source, read_eq_ok.mpr ⟨p, bytes, ⟨h.directories.locate_eq_ok.mp hlocate, ?_, hslash⟩,
    hbytes⟩, hcompile⟩
  cases p with
  | above | unknown => cases hentry
  | inside l =>
    rcases h.entries l with hsame | ⟨_, _, written, hwritten, hfile⟩
    · exact hsame.symm.trans hentry
    · obtain rfl := Entry.file.inj (Option.some.inj (hfile.symm.trans hentry))
      rw [fromUTF8?_toUTF8] at hbytes
      obtain rfl := Option.some.inj hbytes
      exact absurd hcompile (compile_compiled hwritten)

def IsBeside (job : Job) : Prop := job.output = Path.withExtension job.input "c"

structure Writes (level : Nat) (t : FileTree) (job : Job) (l : List String) (text : String) :
    Prop where
  compiled : Compiled level t job.input text
  located : t.locate job.output = .ok (.inside l)
  slash : Path.endsInSlash job.output = false

theorem exists_writes (hbeside : IsBeside job) (hcompiled : Compiled level t job.input text)
    (hwritten : t.write job.output text = .ok u) :
    ∃ l, Writes level t job l text ∧
      t.find? l ≠ some .directory ∧ u = t.putAt (.inside l) (.file text.toUTF8) := by
  obtain ⟨p, hlocate, hentry, hslash, hu⟩ := of_write_eq_ok hwritten
  obtain ⟨source, hread, hcompile⟩ := hcompiled
  obtain ⟨_, _, holds, _⟩ := read_eq_ok.mp hread
  obtain ⟨l, rfl⟩ := locate_withExtension (by decide) holds (hbeside ▸ hlocate) hentry
  exact ⟨l, ⟨⟨source, hread, hcompile⟩, hlocate, hslash⟩, hentry, hu⟩

theorem Overwritten.write (h : Overwritten t u) (hcompile : compile source level = .ok text)
    {l : List String} (hl : u.find? l ≠ some .directory) :
    Overwritten t (u.putAt (.inside l) (.file text.toUTF8)) := by
  refine ⟨fun l' => (sameDirectories_write hl text l').trans (h.directories l'), fun l' => ?_⟩
  rw [write_inside hl]
  split
  · exact .inr ⟨source, level, text, hcompile, rfl⟩
  · exact h.entries l'

/-- After a run all inputs have been compiled as they were at its start, and each location holds
what the last job has written to it. -/
theorem Runs.find? {s : FileTree} {jobs : List Job} (h : Runs level t jobs u)
    (hbeside : ∀ job ∈ jobs, IsBeside job) (since : Overwritten s t) :
    Overwritten s u ∧ (∀ job ∈ jobs, ∃ l text, Writes level s job l text) ∧
      ∀ l, (u.find? l = t.find? l ∧ ∀ job ∈ jobs, ∀ text, ¬Writes level s job l text) ∨
        ∃ job ∈ jobs, ∃ text, Writes level s job l text ∧ u.find? l = some (.file text.toUTF8) := by
  induction h with
  | nil => exact ⟨since, forall_mem_nil _, fun l => .inl ⟨rfl, forall_mem_nil _⟩⟩
  | @cons t v u job rest text compiled written _ ih =>
    obtain ⟨hjob, hrest⟩ := forall_mem_cons.mp hbeside
    obtain ⟨l, writes, hl, rfl⟩ := exists_writes hjob compiled written
    have hwrites : Writes level s job l text := ⟨since.compiled writes.compiled,
      since.directories.locate_eq_ok.mp writes.located, writes.slash⟩
    obtain ⟨_, _, hcompile⟩ := compiled
    obtain ⟨hover, hall, hfind⟩ := ih hrest (since.write hcompile hl)
    refine ⟨hover, forall_mem_cons.mpr ⟨⟨l, text, hwrites⟩, hall⟩, fun l' => ?_⟩
    rcases hfind l' with ⟨hsame, hnone⟩ | ⟨other, hother, text', hwrites', hfile⟩
    · rw [write_inside hl] at hsame
      split at hsame
      · next heq =>
        exact .inr ⟨job, mem_cons_self, text, heq ▸ hwrites, hsame⟩
      · next hne =>
        refine .inl ⟨hsame, forall_mem_cons.mpr ⟨fun text' hwrites' => hne ?_, hnone⟩⟩
        have hplace := Except.ok.inj (hwrites'.located.symm.trans hwrites.located)
        exact Place.inside.inj hplace
    · exact .inr ⟨other, mem_cons_of_mem _ hother, text', hwrites', hfile⟩

theorem Writes.read {l : List String} (h : Writes level t job l text) (hover : Overwritten t u)
    {text' : String} (hfile : u.find? l = some (.file text'.toUTF8)) :
    u.read job.output = .ok text' :=
  read_eq_ok.mpr ⟨_, _, ⟨hover.directories.locate_eq_ok.mpr h.located, hfile, h.slash⟩,
    fromUTF8?_toUTF8 text'⟩

theorem Runs.read {jobs : List Job} (h : Runs level t jobs u)
    (hbeside : ∀ job ∈ jobs, IsBeside job) : ∀ job ∈ jobs, ∃ l text, Writes level t job l text ∧
      ∃ last ∈ jobs, ∃ text', Writes level t last l text' ∧
        ∀ other text, Writes level t other l text → u.read other.output = .ok text' := by
  obtain ⟨hover, hall, hfind⟩ := h.find? hbeside (.refl t)
  intro job hjob
  obtain ⟨l, text, hwrites⟩ := hall job hjob
  refine ⟨l, text, hwrites, ?_⟩
  rcases hfind l with ⟨_, hnone⟩ | ⟨last, hlast, text', hwrites', hfile⟩
  · exact absurd hwrites (hnone job hjob text)
  · exact ⟨last, hlast, text', hwrites', fun _ _ hother => hother.read hover hfile⟩

/-! ## Outputs of several inputs -/

/-- Every output holds what its input is compiled to, as it was at the start. -/
def OutputsKept (level : Nat) (inputs : List String) (t u : FileTree) : Prop :=
  ∀ p ∈ inputs, ∃ text, Compiled level t p text ∧ u.read (Path.withExtension p "c") = .ok text

/-- Inputs that have their outputs at one place are compiled to one text. -/
def AgreeWhereShared (level : Nat) (inputs : List String) (t : FileTree) : Prop :=
  ∀ p ∈ inputs, ∀ q ∈ inputs,
    t.locate (Path.withExtension p "c") = t.locate (Path.withExtension q "c") →
      ∀ text text', Compiled level t p text → Compiled level t q text' → text = text'

def beside (input : String) : Job := ⟨input, Path.withExtension input "c"⟩

theorem jobs_of_several (h : 2 ≤ o.inputs.length) : jobs o = o.inputs.map beside := by
  unfold jobs
  split
  · next heq =>
    rw [heq, length_singleton] at h
    omega
  · rfl

theorem isBeside_of_mem {inputs : List String} : ∀ job ∈ inputs.map beside, IsBeside job :=
  forall_mem_map.mpr fun _ _ => rfl

theorem outputsKept_iff_of_runs {inputs : List String} (h : Runs level t (inputs.map beside) u) :
    OutputsKept level inputs t u ↔ AgreeWhereShared level inputs t := by
  have hread := forall_mem_map.mp (h.read isBeside_of_mem)
  constructor
  · intro hkept p hp q hq hshared text text' htext htext'
    obtain ⟨l, _, hp', last, _, final, _, hfinal⟩ := hread p hp
    obtain ⟨l', _, hq', _⟩ := hread q hq
    -- both outputs are read as the one text at their place
    have hsame : ∀ r ∈ inputs, t.locate (Path.withExtension r "c") = .ok (.inside l) →
        ∀ text, Compiled level t r text → text = final := by
      intro r hr hlocate text htext
      obtain ⟨l', text', hr', _⟩ := hread r hr
      obtain rfl : l' = l := Place.inside.inj (Except.ok.inj (hr'.located.symm.trans hlocate))
      obtain ⟨kept, hcompiled, hkeptRead⟩ := hkept r hr
      have hfinalRead : u.read (Path.withExtension r "c") = .ok final :=
        hfinal (beside r) text' hr'
      rw [hkeptRead] at hfinalRead
      rw [htext.unique hcompiled, Except.ok.inj hfinalRead]
    exact (hsame p hp hp'.located text htext).trans
      (hsame q hq (hshared ▸ hp'.located) text' htext').symm
  · intro hagree p hp
    obtain ⟨l, text, hwrites, last, hlast, text', hwrites', hfinal⟩ := hread p hp
    obtain ⟨q, hq, rfl⟩ := mem_map.mp hlast
    have heq : text = text' := hagree p hp q hq (hwrites.located.trans hwrites'.located.symm)
      text text' hwrites.compiled hwrites'.compiled
    exact ⟨text, hwrites.compiled, heq ▸ hfinal (beside p) text hwrites⟩

theorem runs_of_run {front : Front} {args : List String} {outcome : Outcome}
    (hrequest : front.request args = .run o)
    (hversion : o.version = false) (hseveral : 2 ≤ o.inputs.length)
    (hrun : (run access args front).run t = (outcome, u)) (hexit : outcome.exit = 0) :
    Runs (o.level.getD 0) t (o.inputs.map beside) u := by
  have hinputs : o.inputs.isEmpty = false := by
    cases hempty : o.inputs with
    | nil =>
      rw [hempty] at hseveral
      cases hseveral
    | cons => rfl
  have hcompile : (run access args front).run t = (compileInputs access front o).run t := by
    unfold run
    rw [hrequest]
    simp [hversion, hinputs]
  rw [hcompile] at hrun
  cases hjobs : (runJobs access (o.level.getD 0) (jobs o)).run t with
  | mk failures v =>
    have houtcome : (compileInputs access front o).run t =
        let r := (runJobs access (o.level.getD 0) (jobs o)).run t
        ({ exit := if r.1.isEmpty then 0 else 1, stderr := front.warning o ++ String.join r.1 },
          r.2) := rfl
    rw [houtcome, hjobs] at hrun
    obtain ⟨rfl, rfl⟩ := Prod.mk.inj hrun
    have hnone : failures = [] := by
      by_contra hsome
      have hempty : failures.isEmpty = false := by simpa using hsome
      simp [hempty] at hexit
    rw [hnone] at hjobs
    exact jobs_of_several hseveral ▸ runs_of_runJobs hjobs

/-- However arguments are read, a run on several inputs that exits with 0 either tells the version
and leaves all files alone, or has compiled every input as it was at the start. Then every output
holds the text of its input exactly if inputs of one output are compiled to one text. -/
theorem outputsKept_iff {front : Front} {args : List String} {o : Options} {t u : FileTree}
    {outcome : Outcome} (hrequest : front.request args = .run o) (hseveral : 2 ≤ o.inputs.length)
    (hrun : (run access args front).run t = (outcome, u)) (hexit : outcome.exit = 0) :
    o.version = true ∧ u = t ∨ o.version = false ∧
      (∀ p ∈ o.inputs, ∃ text, Compiled (o.level.getD 0) t p text) ∧
      (OutputsKept (o.level.getD 0) o.inputs t u ↔
        AgreeWhereShared (o.level.getD 0) o.inputs t) := by
  cases hversion : o.version with
  | true =>
    have hleft : (run access args front).run t = ({ exit := 0, stdout := versionText }, t) := by
      unfold run
      rw [hrequest]
      simp only [hversion]
      rfl
    exact .inl ⟨rfl, (Prod.mk.inj (hrun.symm.trans hleft)).2⟩
  | false =>
    have runs := runs_of_run hrequest hversion hseveral hrun hexit
    refine .inr ⟨rfl, fun p hp => ?_, outputsKept_iff_of_runs runs⟩
    obtain ⟨_, text, hwrites, _⟩ := runs.read isBeside_of_mem _ (List.mem_map_of_mem hp)
    exact ⟨text, hwrites.compiled⟩

/-- What is read and compiled, if there is something. -/
def compiled? (level : Nat) (t : FileTree) (input : String) : Option String :=
  match t.read input with
  | .error _ => none
  | .ok source =>
    match compile source level with
    | .error _ => none
    | .ok text => some text

theorem compiled?_eq_some : compiled? level t input = some text ↔ Compiled level t input text := by
  unfold compiled? Compiled
  cases t.read input with
  | error e => simp
  | ok source => cases hcompile : compile source level <;> simp [hcompile]

theorem read_of_toOption {path : String} (h : (t.read path).toOption = some text) :
    t.read path = .ok text := by
  cases hread : t.read path with
  | error e =>
    rw [hread] at h
    cases h
  | ok text' =>
    rw [hread] at h
    rw [Option.some.inj h]

/-- Two files of one name in different directories. -/
def sameName : FileTree := ⟨[(["d"], .directory), (["x.pas"], .file "program p; begin end.".toUTF8),
  (["d", "x.pas"], .file "program q; begin write(1 + 2) end.".toUTF8)]⟩

/-- One of the files is given twice, by different paths. -/
def sameNameArgs : List String := ["x.pas", "-O1", "d/x.pas", "./d/../x.pas"]

theorem sameName_outputs_kept : ∃ (o : Options) (outcome : Outcome) (u : FileTree),
    Front.standard.request sameNameArgs = .run o ∧ o.inputs = ["x.pas", "d/x.pas", "./d/../x.pas"] ∧
      (run access sameNameArgs).run sameName = (outcome, u) ∧ outcome.exit = 0 ∧
      OutputsKept 1 o.inputs sameName u ∧ AgreeWhereShared 1 o.inputs sameName := by
  have hrequest : Front.standard.request sameNameArgs =
      .run { inputs := ["x.pas", "d/x.pas", "./d/../x.pas"], level := some 1 } := by decide +kernel
  have hfacts : ((run access sameNameArgs).run sameName).1.exit = 0 ∧
      ∀ p ∈ ["x.pas", "d/x.pas", "./d/../x.pas"], (compiled? 1 sameName p).isSome = true ∧
        (((run access sameNameArgs).run sameName).2.read (Path.withExtension p "c")).toOption =
          compiled? 1 sameName p := by decide +kernel
  cases hrun : (run access sameNameArgs).run sameName with
  | mk outcome u =>
    rw [hrun] at hfacts
    obtain ⟨hexit, houtputs⟩ := hfacts
    have hkept : OutputsKept 1 ["x.pas", "d/x.pas", "./d/../x.pas"] sameName u := by
      intro p hp
      obtain ⟨hsome, hread⟩ := houtputs p hp
      obtain ⟨text, htext⟩ := Option.isSome_iff_exists.mp hsome
      exact ⟨text, compiled?_eq_some.mp htext, read_of_toOption (hread.trans htext)⟩
    refine ⟨_, outcome, u, hrequest, rfl, rfl, hexit, hkept, ?_⟩
    rcases outputsKept_iff hrequest (by decide) hrun hexit with ⟨hversion, _⟩ | ⟨_, _, hiff⟩
    · cases hversion
    · exact hiff.mp hkept

/-- Two files that differ only in the extensions of their names. -/
def sameStem : FileTree := ⟨[(["a.pp"], .file "program p; begin write(1) end.".toUTF8),
  (["a.pas"], .file "program q; begin end.".toUTF8)]⟩

/-- The second output takes the place of the first one, and nothing is said about it. -/
theorem sameStem_output_lost : ∃ (u : FileTree) (first second : String),
    (run access ["a.pp", "a.pas"]).run sameStem = ({ exit := 0 }, u) ∧
      Compiled 0 sameStem "a.pp" first ∧ Compiled 0 sameStem "a.pas" second ∧ first ≠ second ∧
      u.read "a.c" = .ok second ∧ ¬OutputsKept 0 ["a.pp", "a.pas"] sameStem u := by
  have hfacts : ((run access ["a.pp", "a.pas"]).run sameStem).1 = { exit := 0 } ∧
      (((run access ["a.pp", "a.pas"]).run sameStem).2.read "a.c").toOption =
        compiled? 0 sameStem "a.pas" ∧
      (compiled? 0 sameStem "a.pp").isSome = true ∧ (compiled? 0 sameStem "a.pas").isSome = true ∧
      compiled? 0 sameStem "a.pp" ≠ compiled? 0 sameStem "a.pas" ∧
      Path.withExtension "a.pp" "c" = "a.c" := by decide +kernel
  cases hrun : (run access ["a.pp", "a.pas"]).run sameStem with
  | mk outcome u =>
    rw [hrun] at hfacts
    obtain ⟨rfl, hread, hsome, hsome', hne, hpath⟩ := hfacts
    obtain ⟨first, hfirst⟩ := Option.isSome_iff_exists.mp hsome
    obtain ⟨second, hsecond⟩ := Option.isSome_iff_exists.mp hsome'
    rw [hsecond] at hread
    rw [hfirst, hsecond] at hne
    have hlost : first ≠ second := fun h => hne (congrArg some h)
    have hread := read_of_toOption hread
    have hcompiled := compiled?_eq_some.mp hfirst
    refine ⟨u, first, second, rfl, hcompiled, compiled?_eq_some.mp hsecond, hlost, hread, ?_⟩
    intro hkept
    obtain ⟨text, htext, hout⟩ := hkept "a.pp" List.mem_cons_self
    rw [hpath, hread] at hout
    exact hlost ((hcompiled.unique htext).trans (Except.ok.inj hout).symm)

end MiniPascal.Command

import MiniPascal.Command.FileTree
import MiniPascal.Proofs.Lowering

/-!
# Reading and writing in a tree of files

A file that is written takes the place of what was at one location, and what else was in the tree is
read as before.
-/

namespace MiniPascal

open FileTree List

/-! ## Paths -/

namespace Path

theorem parts_ne_nil (cs : List Char) : parts cs ≠ [] := by
  cases cs with
  | nil => exact cons_ne_nil _ _
  | cons c cs =>
    rw [parts]
    split
    · exact cons_ne_nil _ _
    · split <;> exact cons_ne_nil _ _

theorem parts_append_slash (cs ds : List Char) :
    parts (cs ++ '/' :: ds) = parts cs ++ parts ds := by
  induction cs with
  | nil => rfl
  | cons c cs ih =>
    rw [cons_append, parts, parts, ih]
    split
    · rfl
    · obtain ⟨p, ps, hp⟩ := exists_cons_of_ne_nil (parts_ne_nil cs)
      rw [hp]
      rfl

theorem parts_of_not_mem {cs : List Char} (h : '/' ∉ cs) : parts cs = [cs] := by
  induction cs with
  | nil => rfl
  | cons c cs ih =>
    rw [parts, if_neg (Ne.symm (ne_of_not_mem_cons h)), ih (not_mem_of_not_mem_cons h)]

/-- Nothing, or text that ends in a slash. -/
def IsDirectoryText (cs : List Char) : Prop := cs = [] ∨ ∃ ds, cs = ds ++ ['/']

variable {directory name : List Char}

theorem components_append (hdirectory : IsDirectoryText directory) (hname : '/' ∉ name)
    (hne : name ≠ []) : components (String.ofList (directory ++ name)) =
      components (String.ofList directory) ++ [String.ofList name] := by
  have hkept : (!name.isEmpty) = true := by simpa using hne
  unfold components
  rw [String.toList_ofList, String.toList_ofList]
  rcases hdirectory with rfl | ⟨ds, rfl⟩
  · rw [nil_append, parts_of_not_mem hname]
    simp [parts, hkept]
  · rw [append_assoc, singleton_append, parts_append_slash, parts_of_not_mem hname,
      parts_append_slash]
    simp [parts, hkept]

theorem isAbsolute_append (hname : '/' ∉ name) :
    isAbsolute (String.ofList (directory ++ name)) = isAbsolute (String.ofList directory) := by
  unfold isAbsolute
  rw [String.toList_ofList, String.toList_ofList]
  cases directory with
  | nil =>
    cases name with
    | nil => rfl
    | cons c cs =>
      have hc : c ≠ '/' := Ne.symm (ne_of_not_mem_cons hname)
      simp [hc]
  | cons c cs => rfl

theorem mem_of_mem_stem {c : Char} (h : c ∈ stem name) : c ∈ name := by
  unfold stem at h
  split at h
  · next before hbefore =>
    split at h
    · exact h
    · exact (dropWhile_sublist _).subset (hbefore ▸ mem_cons_of_mem _ h)
  · exact h

theorem dropTail_eq_self {cs : List Char} (hslash : ∀ ds, cs ≠ '/' :: ds)
    (hdot : ∀ ds, cs ≠ '.' :: '/' :: ds) : dropTail cs = cs := by
  unfold dropTail
  split
  · next ds => exact absurd rfl (hslash ds)
  · next ds => exact absurd rfl (hdot ds)
  · rfl

theorem isDirectoryText_reverse_dropWhile (cs : List Char) :
    IsDirectoryText (cs.dropWhile (· != '/')).reverse := by
  cases h : cs.dropWhile (· != '/') with
  | nil => exact .inl rfl
  | cons c ds =>
    have hc := head?_dropWhile_not (· != '/') cs
    rw [h] at hc
    have hc : c = '/' := by simpa using hc
    rw [hc, reverse_cons]
    exact .inr ⟨_, rfl⟩

/-- Another extension gives a path to the same directory, unless it leaves the path as it is. -/
theorem withExtension_cases {path extension : String} (hextension : '/' ∉ extension.toList)
    (hpath : dropTail path.toList.reverse = path.toList.reverse) :
    withExtension path extension = path ∨ ∃ directory name name', IsDirectoryText directory ∧
      ('/' ∉ name ∧ name ≠ [] ∧ path = String.ofList (directory ++ name)) ∧
      '/' ∉ name' ∧ name' ≠ [] ∧
        withExtension path extension = String.ofList (directory ++ name') := by
  unfold withExtension
  dsimp only
  rw [hpath]
  have hsplit := takeWhile_append_dropWhile (p := (· != '/')) (l := path.toList.reverse)
  have hslash : '/' ∉ path.toList.reverse.takeWhile (· != '/') := fun hmem =>
    absurd (all_eq_true.mp all_takeWhile _ hmem) (by decide)
  have hdirectory := isDirectoryText_reverse_dropWhile path.toList.reverse
  revert hsplit hslash hdirectory
  generalize path.toList.reverse.takeWhile (· != '/') = name
  generalize path.toList.reverse.dropWhile (· != '/') = directory
  intro hsplit hslash hdirectory
  have hname : path = String.ofList (directory.reverse ++ name.reverse) := by
    rw [← reverse_append, hsplit, reverse_reverse, String.ofList_toList]
  split
  · exact .inl rfl
  · next hother =>
    have hnonempty : name ≠ [] := fun h => hother (.inl h)
    have hplaced : '/' ∉ name.reverse ∧ name.reverse ≠ [] ∧
        path = String.ofList (directory.reverse ++ name.reverse) :=
      ⟨by simpa using hslash, by simpa using hnonempty, hname⟩
    refine .inr ⟨directory.reverse, name.reverse, ?_⟩
    split
    · exact ⟨['.', '.'], hdirectory, hplaced, by decide, by decide, by
        rw [reverse_append]
        rfl⟩
    · refine ⟨(stem name).reverse ++ '.' :: extension.toList, hdirectory, hplaced, ?_, by simp, ?_⟩
      · intro hmem
        rcases mem_append.mp hmem with hmem | hmem
        · exact hslash (mem_of_mem_stem (mem_reverse.mp hmem))
        · exact hextension (mem_of_ne_of_mem (by decide) hmem)
      · apply String.toList_inj.mp
        simp

end Path

/-! ## Entries -/

namespace FileTree

theorem lookup_map_replace (location : List String) (entry : Entry) (l : List String)
    (entries : List (List String × Entry)) :
    (entries.map fun e => if e.1 = location then (location, entry) else e).lookup l =
      if l = location then (entries.lookup l).map fun _ => entry else entries.lookup l := by
  induction entries with
  | nil => simp
  | cons e entries ih =>
    rw [map_cons, lookup_cons, lookup_cons, ih]
    by_cases he : e.1 = location
    · by_cases hl : l = location
      · simp [he, hl]
      · have hother : (l == location) = false := beq_eq_false_iff_ne.mpr hl
        simp [he, hl, hother]
    · by_cases hl : l = e.1
      · have hne : l ≠ location := fun h => he (hl ▸ h)
        simp [he, hl]
      · have hother : (l == e.1) = false := beq_eq_false_iff_ne.mpr hl
        simp [he, hother]

variable {t : FileTree} {bytes : ByteArray} {l cs : List String} {path c : String} {q : Place}

theorem find?_put {location : List String} (hlocation : location ≠ []) (entry : Entry)
    (l : List String) :
    (t.put location entry).find? l = if l = location then some entry else t.find? l := by
  unfold find? put
  by_cases hl : l = []
  · subst hl
    rw [if_neg (Ne.symm hlocation)]
    rfl
  · have hempty : ¬l.isEmpty = true := by simpa using hl
    rw [if_neg hempty, if_neg hempty]
    split
    · next hsome =>
      rw [lookup_map_replace]
      split
      · next heq =>
        obtain ⟨old, hold⟩ := Option.isSome_iff_exists.mp hsome
        rw [heq, hold]
        rfl
      · rfl
    · next hnone =>
      rw [lookup_append]
      split
      · next heq =>
        rw [heq, Option.not_isSome_iff_eq_none.mp hnone]
        simp
      · next hne =>
        have hother : (l == location) = false := beq_eq_false_iff_ne.mpr hne
        simp [lookup_cons, hother]

theorem find?_ne_nil (h : t.find? l ≠ some .directory) : l ≠ [] := by
  rintro rfl
  exact h rfl

def SameDirectories (t u : FileTree) : Prop :=
  ∀ l, t.find? l = some .directory ↔ u.find? l = some .directory

theorem SameDirectories.entryAt? {t u : FileTree} (h : SameDirectories t u) (p : Place) :
    t.entryAt? p = some .directory ↔ u.entryAt? p = some .directory := by
  cases p with
  | inside l => exact h l
  | above | unknown => exact Iff.rfl

variable {p : Place} {u : FileTree} {text : String}

theorem walk_cons_eq_ok : t.walk p (c :: cs) = .ok q ↔
      t.entryAt? p = some .directory ∧ t.walk (p.step c) cs = .ok q := by
  rw [walk]
  cases t.entryAt? p with
  | none => simp
  | some entry => cases entry <;> simp

theorem walk_concat_eq_ok : t.walk p (cs ++ [c]) = .ok q ↔
      ∃ d, t.walk p cs = .ok d ∧ t.entryAt? d = some .directory ∧ q = d.step c := by
  induction cs generalizing p with
  | nil =>
    rw [nil_append, walk_cons_eq_ok]
    simp [walk, eq_comm]
  | cons b cs ih =>
    rw [cons_append, walk_cons_eq_ok, ih]
    simp only [walk_cons_eq_ok, and_assoc, exists_and_left]

theorem SameDirectories.walk_eq_ok (h : SameDirectories t u) (cs : List String) (p : Place) :
    t.walk p cs = .ok q ↔ u.walk p cs = .ok q := by
  induction cs generalizing p with
  | nil => exact Iff.rfl
  | cons c cs ih => rw [walk_cons_eq_ok, walk_cons_eq_ok, h.entryAt?, ih]

theorem SameDirectories.locate_eq_ok (h : SameDirectories t u) :
    t.locate path = .ok q ↔ u.locate path = .ok q := h.walk_eq_ok _ _

theorem locate_append_eq_ok {directory name : List Char}
    (hdirectory : Path.IsDirectoryText directory) (hname : '/' ∉ name) (hne : name ≠ []) :
    t.locate (String.ofList (directory ++ name)) = .ok q ↔
      ∃ d, t.locate (String.ofList directory) = .ok d ∧ t.entryAt? d = some .directory ∧
        q = d.step (String.ofList name) := by
  unfold locate
  rw [Path.components_append hdirectory hname hne, Path.isAbsolute_append hname, walk_concat_eq_ok]

/-! ## Reading and writing -/

theorem fromUTF8?_toUTF8 (s : String) : String.fromUTF8? s.toUTF8 = some s := dif_pos s.isValidUTF8

/-- The file to which a path leads. -/
def Holds (t : FileTree) (path : String) (p : Place) (bytes : ByteArray) : Prop :=
  t.locate path = .ok p ∧ t.entryAt? p = some (.file bytes) ∧ Path.endsInSlash path = false

theorem read_eq_ok : t.read path = .ok text ↔
    ∃ p bytes, t.Holds path p bytes ∧ String.fromUTF8? bytes = some text := by
  constructor
  · intro h
    obtain ⟨p, hlocate, h⟩ := Except.bind_eq_ok.mp h
    split at h
    · cases h
    · cases h
    · next bytes hentry =>
      split at h
      · cases h
      · next hslash =>
        split at h
        · next htext =>
          cases h
          exact ⟨p, bytes, ⟨hlocate, hentry, Bool.eq_false_iff.mpr hslash⟩, htext⟩
        · cases h
  · rintro ⟨p, bytes, ⟨hlocate, hentry, hslash⟩, htext⟩
    refine Except.bind_eq_ok.mpr ⟨p, hlocate, ?_⟩
    simp only [hentry, hslash, htext]
    rfl

theorem of_write_eq_ok (h : t.write path text = .ok u) :
    ∃ p, t.locate path = .ok p ∧ t.entryAt? p ≠ some .directory ∧
      Path.endsInSlash path = false ∧ u = t.putAt p (.file text.toUTF8) := by
  obtain ⟨p, hlocate, h⟩ := Except.bind_eq_ok.mp h
  split at h
  · cases h
  all_goals
    next hentry =>
    split at h
    · cases h
    · next hslash =>
      cases h
      refine ⟨p, hlocate, fun hdirectory => ?_, Bool.eq_false_iff.mpr hslash, rfl⟩
      cases hentry.symm.trans hdirectory

theorem write_inside (h : t.find? l ≠ some .directory) (text : String) (l' : List String) :
    (t.putAt (.inside l) (.file text.toUTF8)).find? l' =
      if l' = l then some (.file text.toUTF8) else t.find? l' :=
  find?_put (find?_ne_nil h) _ l'

theorem sameDirectories_write (h : t.find? l ≠ some .directory) (text : String) :
    SameDirectories (t.putAt (.inside l) (.file text.toUTF8)) t := by
  intro l'
  rw [write_inside h]
  split
  · next heq =>
    rw [heq]
    exact ⟨fun hfile => Entry.noConfusion (Option.some.inj hfile), fun hdir => absurd hdir h⟩
  · exact Iff.rfl

theorem inside_step (l : List String) (c : String) :
    (Place.inside l).step c = .above ∨ ∃ l', (Place.inside l).step c = .inside l' := by
  by_cases hdot : c = "."
  · exact .inr ⟨l, by rw [hdot, Place.step]⟩
  by_cases hup : c = ".."
  · rw [hup, Place.step]
    split
    · exact .inl rfl
    · exact .inr ⟨_, rfl⟩
  · rw [Place.step] <;> simp [hdot, hup]

theorem inside_of_step {d : Place} (hdirectory : t.entryAt? d = some .directory)
    (hfile : t.entryAt? (d.step c) = some (.file bytes)) : ∃ l, d = .inside l := by
  cases d with
  | inside l => exact ⟨l, rfl⟩
  | unknown => cases hdirectory
  | above =>
    unfold Place.step at hfile
    split at hfile <;> simp_all [entryAt?]

theorem dropTail_of_holds (h : t.Holds path p bytes) :
    Path.dropTail path.toList.reverse = path.toList.reverse := by
  obtain ⟨hlocate, hfile, hslash⟩ := h
  apply Path.dropTail_eq_self
  · intro ds hds
    rw [Path.endsInSlash, getLast?_eq_head?_reverse, hds, head?_cons] at hslash
    exact absurd hslash (by decide)
  · intro ds hds
    have hpath : path = String.ofList (ds.reverse ++ ['/'] ++ ['.']) := by
      apply String.toList_inj.mp
      rw [String.toList_ofList, ← reverse_reverse path.toList, hds]
      simp
    rw [hpath, locate_append_eq_ok (.inr ⟨_, rfl⟩) (by decide) (by decide)] at hlocate
    obtain ⟨d, _, hdirectory, hp⟩ := hlocate
    have hstep : d.step (String.ofList ['.']) = d := by cases d <;> rfl
    rw [hp, hstep, hdirectory] at hfile
    cases hfile

theorem locate_withExtension {extension : String} (hextension : '/' ∉ extension.toList)
    (h : t.Holds path p bytes) (hlocate : t.locate (Path.withExtension path extension) = .ok q)
    (hq : t.entryAt? q ≠ some .directory) : ∃ l, q = .inside l := by
  rcases Path.withExtension_cases hextension (dropTail_of_holds h) with
    hsame | ⟨directory, name, name', hdirectory, ⟨hname, hne, hpath⟩, hname', hne', hout⟩
  · rw [hsame, h.1] at hlocate
    obtain rfl := Except.ok.inj hlocate
    cases p with
    | inside l => exact ⟨l, rfl⟩
    | above => exact absurd rfl hq
    | unknown => cases h.2.1
  · have hsource := h.1
    rw [hpath, locate_append_eq_ok hdirectory hname hne] at hsource
    rw [hout, locate_append_eq_ok hdirectory hname' hne'] at hlocate
    obtain ⟨d, hd, hisDirectory, rfl⟩ := hsource
    obtain ⟨e, he, _, rfl⟩ := hlocate
    obtain rfl : d = e := Except.ok.inj (hd.symm.trans he)
    obtain ⟨l, rfl⟩ := inside_of_step hisDirectory h.2.1
    rcases inside_step l (String.ofList name') with habove | hinside
    · rw [habove] at hq
      exact absurd rfl hq
    · exact hinside

end FileTree

end MiniPascal

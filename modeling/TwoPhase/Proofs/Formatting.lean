import TwoPhase.Command.Execute
import TwoPhase.Proofs.Writing

/-!
# Formatting files

Formatting puts the canonical text in place of each listed file's text. A path is
walked by asking which places are folders, and that stays as it is, so paths lead where
they led before (`Formatted.resolve_eq`), also those that come to one file in two ways.

* `Directory.Formatted`: what formatting does to a directory. It composes
  (`Formatted.append`), so one file after another is enough (`exists_doFmt`).
* `Formatted.load_eq`: the programs of every file stay the same.
-/

namespace TwoPhase

/-! ## Canonical texts -/

namespace Text

/-- The canonical text of a workload. A text that is no workload stays as it is. -/
def canonical (text : String) : String :=
  match readWorkload text with
  | .ok programs => workloadText programs
  | .error _ => text

variable {text : String}

theorem canonical_of_ok {programs : List Program} (h : readWorkload text = .ok programs) :
    canonical text = workloadText programs := by
  simp only [canonical, h]

theorem readWorkload_canonical (text : String) :
    readWorkload (canonical text) = readWorkload text := by
  cases h : readWorkload text with
  | ok programs => rw [canonical_of_ok h, readWorkload_workloadText]
  | error e => simp only [canonical, h]

theorem canonical_canonical (text : String) : canonical (canonical text) = canonical text := by
  cases h : readWorkload text with
  | ok programs => rw [canonical_of_ok ((readWorkload_canonical text).trans h), canonical_of_ok h]
  | error e => simp only [canonical, h]

end Text

def Found.canonical : Found → Found
  | file (.text s) => file (.text (Text.canonical s))
  | found => found

namespace Directory

variable {d d₁ d' : Directory} {p q : Place} {path text s : String} {paths : List String}

/-! ## Reading and writing -/

theorem lookup_replace (files : List (Place × FileContent)) (content : FileContent) :
    (files.map fun file => if file.1 = p then (p, content) else file).lookup q =
      if q = p ∧ files.any (·.1 = p) then some content else files.lookup q := by
  induction files with
  | nil => simp
  | cons file files ih =>
    obtain ⟨p', content'⟩ := file
    rw [List.map_cons, List.any_cons]
    by_cases hp : p' = p
    · subst hp
      by_cases hq : q = p' <;> simp [List.lookup_cons, beq_false_of_ne, hq, ih]
    · rw [if_neg hp, decide_eq_false hp, Bool.false_or]
      by_cases hq : q = p'
      · simp [hq, hp]
      · simp [List.lookup_cons, beq_false_of_ne hq, ih]

theorem lookup_files_put (d : Directory) (p q : Place) (s : String) :
    (d.put p s).files.lookup q = if q = p then some (.text s) else d.files.lookup q := by
  unfold put
  split
  case isTrue hany => simp [lookup_replace, hany]
  case isFalse hany =>
    rw [List.lookup_append]
    by_cases hq : q = p
    · have hnone : d.files.lookup q = none := by
        rw [List.lookup_eq_none_iff]
        intro file hfile
        simp only [List.any_eq_true, decide_eq_true_eq, not_exists, not_and] at hany
        exact bne_iff_ne.2 (hq ▸ Ne.symm (hany file hfile))
      rw [hnone, if_pos hq, hq]
      simp
    · simp [List.lookup_cons, beq_false_of_ne hq, hq]

theorem folders_put (d : Directory) (p : Place) (s : String) : (d.put p s).folders = d.folders := by
  unfold put
  split <;> rfl

theorem find_put (h : d.find p ≠ .folder) :
    (d.put p s).find q = if q = p then .file (.text s) else d.find q := by
  have hp : ¬ (p.names = [] ∨ p ∈ d.folders) := fun hp => h (if_pos hp)
  unfold find
  rw [folders_put, lookup_files_put]
  by_cases hq : q = p
  · subst hq
    simp only [if_neg hp, if_true]
  · simp only [if_neg hq]

theorem read_eq_ok_iff :
    d.read path = .ok text ↔ ∃ p, d.resolve path = .ok p ∧ d.find p = .file (.text text) := by
  unfold read
  cases d.resolve path with
  | error e => simp [bind, Except.bind]
  | ok p =>
    simp only [bind, Except.bind, Except.ok.injEq, exists_eq_left']
    split <;> simp_all

theorem write_eq_put (hp : d.resolve path = .ok p) (hf : d.find p ≠ .folder) (s : String) :
    d.write path s = .ok (d.put p s) := by
  unfold write
  rw [hp]
  simp only [bind, Except.bind]
  split <;> simp_all

/-! ## Formatted directories -/

/-- `d'` is `d` with canonical texts in the files that `paths` lead to. -/
structure Formatted (paths : List String) (d d' : Directory) : Prop where
  folders : d'.folders = d.folders
  listed : ∀ p, (∃ path ∈ paths, d.resolve path = .ok p) → d'.find p = (d.find p).canonical
  unlisted : ∀ p, (∀ path ∈ paths, d.resolve path ≠ .ok p) → d'.find p = d.find p

namespace Formatted

/-- A place holds what it held, or the canonical text instead of a text. -/
theorem find_cases (h : Formatted paths d d') (p : Place) :
    d'.find p = d.find p ∨
      ∃ s, d.find p = .file (.text s) ∧ d'.find p = .file (.text (Text.canonical s)) := by
  by_cases hp : ∃ path ∈ paths, d.resolve path = .ok p
  · rw [h.listed p hp]
    match d.find p with
    | .missing => exact .inl rfl
    | .folder => exact .inl rfl
    | .file (.text s) => exact .inr ⟨s, rfl, rfl⟩
    | .file (.binary _) => exact .inl rfl
  · exact .inl (h.unlisted p (by simpa using hp))

theorem step_eq (h : Formatted paths d d') (p : Place) (part : String) :
    d'.step p part = d.step p part := by
  unfold step
  rcases h.find_cases p with hp | ⟨s, hs, hp⟩
  · rw [hp]
  · rw [hp, hs]

theorem walk_eq (h : Formatted paths d d') (p : Place) (parts : List String) :
    d'.walk p parts = d.walk p parts := by
  induction parts generalizing p with
  | nil => rfl
  | cons part parts ih => simp only [walk, h.step_eq, ih]

theorem resolve_eq (h : Formatted paths d d') (path : String) :
    d'.resolve path = d.resolve path := by
  simp only [resolve, h.walk_eq]

theorem read_cases (h : Formatted paths d d') (path : String) :
    d'.read path = d.read path ∨ d'.read path = (d.read path).map Text.canonical := by
  unfold read
  rw [h.resolve_eq]
  cases d.resolve path with
  | error e => exact .inl rfl
  | ok p =>
    simp only [bind, Except.bind]
    rcases h.find_cases p with hp | ⟨s, hs, hp⟩
    · left
      rw [hp]
    · right
      rw [hp, hs]
      rfl

theorem read_of_mem (h : Formatted paths d d') (hmem : path ∈ paths)
    (hread : d.read path = .ok text) : d'.read path = .ok (Text.canonical text) := by
  obtain ⟨p, hp, hfind⟩ := read_eq_ok_iff.1 hread
  refine read_eq_ok_iff.2 ⟨p, (h.resolve_eq path).trans hp, ?_⟩
  rw [h.listed p ⟨path, hmem, hp⟩, hfind]
  rfl

theorem nil (d : Directory) : Formatted [] d d where
  folders := rfl
  listed := by simp
  unlisted _ _ := rfl

/-- Formatting first some files and then others. A file that is among both changes once. -/
theorem append {paths' : List String} (h : Formatted paths d d₁) (h' : Formatted paths' d₁ d') :
    Formatted (paths ++ paths') d d' where
  folders := h'.folders.trans h.folders
  listed p hp := by
    by_cases hp' : ∃ path ∈ paths', d₁.resolve path = .ok p
    · rw [h'.listed p hp']
      rcases h.find_cases p with hsame | ⟨s, hs, hcanonical⟩
      · rw [hsame]
      · simp only [hcanonical, hs, Found.canonical, Text.canonical_canonical]
    · rw [h'.unlisted p (by simpa using hp')]
      obtain ⟨path, hmem, hpath⟩ := hp
      rcases List.mem_append.1 hmem with hmem | hmem
      · exact h.listed p ⟨path, hmem, hpath⟩
      · exact absurd ⟨path, hmem, (h.resolve_eq path).trans hpath⟩ hp'
  unlisted p hp := by
    have h₁ := h.unlisted p fun path hmem => hp path (List.mem_append_left _ hmem)
    have h₂ := h'.unlisted p fun path hmem =>
      h.resolve_eq path ▸ hp path (List.mem_append_right _ hmem)
    exact h₂.trans h₁

end Formatted

theorem formatted_put (hp : d.resolve path = .ok p) (hfind : d.find p = .file (.text text)) :
    Formatted [path] d (d.put p (Text.canonical text)) where
  folders := d.folders_put p _
  listed q hq := by
    obtain rfl : p = q := by simpa [hp] using hq
    rw [find_put (by simp [hfind]), if_pos rfl, hfind]
    rfl
  unlisted q hq := by
    have hne : q ≠ p := fun h => hq path (List.mem_singleton_self path) (h ▸ hp)
    rw [find_put (by simp [hfind]), if_neg hne]

theorem formatted_self (hread : d.read path = .ok text) (hcanonical : Text.canonical text = text) :
    Formatted [path] d d where
  folders := rfl
  listed q hq := by
    obtain ⟨p, hp, hfind⟩ := read_eq_ok_iff.1 hread
    obtain rfl : p = q := by simpa [hp] using hq
    rw [hfind, Found.canonical, hcanonical]
  unlisted _ _ := rfl

def HoldsWorkload (d : Directory) (path : String) : Prop :=
  ∃ text programs, d.read path = .ok text ∧ Text.readWorkload text = .ok programs

theorem Formatted.holdsWorkload (h : Formatted paths d d') (hd : d.HoldsWorkload path) :
    d'.HoldsWorkload path := by
  obtain ⟨text, programs, hread, hprograms⟩ := hd
  rcases h.read_cases path with hread' | hread'
  · exact ⟨text, programs, hread'.trans hread, hprograms⟩
  · refine ⟨Text.canonical text, programs, ?_, (Text.readWorkload_canonical text).trans hprograms⟩
    rw [hread', hread]
    rfl

def isCanonical (d : Directory) (path : String) : Bool :=
  match d.read path with
  | .ok text => Text.canonical text = text
  | .error _ => false

theorem isCanonical_of_read {programs : List Program} (hread : d.read path = .ok text)
    (hprograms : Text.readWorkload text = .ok programs) :
    d.isCanonical path = decide (Text.workloadText programs = text) := by
  simp only [isCanonical, hread, Text.canonical_of_ok hprograms]

theorem isCanonical_eq_false_iff (h : d.HoldsWorkload path) :
    d.isCanonical path = false ↔ ∃ text programs, d.read path = .ok text ∧
      Text.readWorkload text = .ok programs ∧ text ≠ Text.workloadText programs := by
  constructor
  · intro hfalse
    obtain ⟨text, programs, hread, hprograms⟩ := h
    rw [isCanonical_of_read hread hprograms, decide_eq_false_iff_not] at hfalse
    exact ⟨text, programs, hread, hprograms, Ne.symm hfalse⟩
  · rintro ⟨text, programs, hread, hprograms, hne⟩
    rw [isCanonical_of_read hread hprograms]
    exact decide_eq_false hne.symm

end Directory

namespace Command

open Directory

variable {d d' : Directory} {path text : String} {programs : List Program} {paths : List String}

theorem load_eq_map (h : d.read path = .ok text) :
    load d path = ((Text.readWorkload text).mapError fun e => path ++ ": " ++ e.text).map
      fun programs => (text, programs) := by
  simp only [load, h, Except.mapError, bind, Except.bind]
  cases Text.readWorkload text <;> rfl

theorem load_of_read (hread : d.read path = .ok text)
    (hprograms : Text.readWorkload text = .ok programs) :
    load d path = .ok (text, programs) := by
  rw [load_eq_map hread, hprograms]
  rfl

/-- The programs of a file are the same after formatting, and so is what is wrong with it. -/
theorem load_eq (h : Formatted paths d d') (path : String) :
    (load d' path).map Prod.snd = (load d path).map Prod.snd := by
  rcases h.read_cases path with hread | hread
  · unfold load
    rw [hread]
  · cases hd : d.read path with
    | error e =>
      rw [hd] at hread
      unfold load
      rw [hread, hd]
      rfl
    | ok text =>
      rw [hd] at hread
      rw [load_eq_map hread, load_eq_map hd, Text.readWorkload_canonical]
      cases Text.readWorkload text <;> rfl

theorem doRun_eq_bind (d : Directory) (input : String) (store : Store) (options : RunOptions) :
    doRun d input store options =
      match ((load d input).map Prod.snd).bind (runPrograms store · options) with
      | .error message => fail d "" message
      | .ok report => succeed d (showReport options.json report) := by
  unfold doRun
  cases load d input <;> rfl

theorem doRun_eq (h : Formatted paths d d') (input : String) (store : Store)
    (options : RunOptions) :
    doRun d' input store options = { doRun d input store options with directory := d' } := by
  rw [doRun_eq_bind, doRun_eq_bind, load_eq h]
  cases ((load d input).map Prod.snd).bind (runPrograms store · options) <;> rfl

/-! ## One file after another -/

/-- What one path does: its file gets its canonical text, or has it already. -/
theorem exists_doFmt_cons (h : d.HoldsWorkload path) (rest : List String) (out : String)
    (stale : Bool) :
    ∃ out' d₁, doFmt false (path :: rest) d out stale = doFmt false rest d₁ out' stale ∧
      Formatted [path] d d₁ := by
  obtain ⟨text, programs, hread, hprograms⟩ := h
  obtain ⟨p, hp, hfind⟩ := read_eq_ok_iff.1 hread
  have hcanonical := Text.canonical_of_ok hprograms
  rw [doFmt, load_of_read hread hprograms]
  by_cases heq : Text.workloadText programs = text
  · exact ⟨out, d, if_pos heq, formatted_self hread (hcanonical.trans heq)⟩
  · have hwrite := write_eq_put hp (by simp [hfind]) (Text.workloadText programs)
    refine ⟨out ++ path ++ ": formatted\n", _, ?_, hcanonical ▸ formatted_put hp hfind⟩
    simp only [heq, hwrite, if_false, Bool.false_eq_true]

theorem exists_doFmt (h : ∀ path ∈ paths, d.HoldsWorkload path) (out : String) (stale : Bool) :
    ∃ out' d', doFmt false paths d out stale = ⟨if stale then 1 else 0, out', "", d'⟩ ∧
      Formatted paths d d' := by
  induction paths generalizing d out with
  | nil => exact ⟨out, d, rfl, .nil d⟩
  | cons path paths ih =>
    obtain ⟨out₁, d₁, hstep, hpath⟩ := exists_doFmt_cons (h path List.mem_cons_self) paths out stale
    obtain ⟨out', d', hrest, hpaths⟩ := ih (d := d₁)
      (fun other hmem => hpath.holdsWorkload (h other (List.mem_cons_of_mem path hmem))) out₁
    exact ⟨out', d', hstep.trans hrest, hpath.append hpaths⟩

/-- Files that have their canonical text stay as they are, and nothing is said about them. -/
theorem doFmt_of_canonical
    (h : ∀ path ∈ paths, ∃ programs, d.read path = .ok (Text.workloadText programs))
    (check : Bool) (out : String) (stale : Bool) :
    doFmt check paths d out stale = ⟨if stale then 1 else 0, out, "", d⟩ := by
  induction paths with
  | nil => rfl
  | cons path paths ih =>
    obtain ⟨programs, hread⟩ := h path List.mem_cons_self
    rw [doFmt, load_of_read hread (Text.readWorkload_workloadText programs)]
    simp only [if_true]
    exact ih fun other hmem => h other (List.mem_cons_of_mem path hmem)

/-- A check looks at each file and changes none. -/
theorem doFmt_check (h : ∀ path ∈ paths, d.HoldsWorkload path) (out : String) (stale : Bool) :
    doFmt true paths d out stale =
      ⟨if stale || paths.any (!d.isCanonical ·) then 1 else 0,
        out ++ String.join ((paths.filter (!d.isCanonical ·)).map (· ++ ": not formatted\n")),
        "", d⟩ := by
  induction paths generalizing out stale with
  | nil => simp [doFmt]
  | cons path paths ih =>
    obtain ⟨text, programs, hread, hprograms⟩ := h path List.mem_cons_self
    have hcanonical := isCanonical_of_read hread hprograms
    have hrest : ∀ other ∈ paths, d.HoldsWorkload other :=
      fun other hmem => h other (List.mem_cons_of_mem path hmem)
    rw [doFmt, load_of_read hread hprograms]
    by_cases heq : Text.workloadText programs = text
    · simp [hcanonical, heq, ih hrest]
    · simp [hcanonical, heq, ih hrest, String.append_assoc]

/-- **Formatting keeps what files mean.** Where a workload can be read at every path, formatting
succeeds. It leaves the canonical text of its programs in each listed file and all other files and
the folders as they were. Afterwards neither a check nor formatting again has anything to say or to
change, and running any file says what it said before. A check before it changes no file and fails
exactly if the text of a listed file is not canonical. -/
theorem fmt_keeps_meaning {Time : Type} (chance : Chance Time)
    (h : ∀ path ∈ paths, d.HoldsWorkload path) :
    (∃ out after, (fmt paths false).perform chance d = ⟨0, out, "", after⟩ ∧
      (∀ path ∈ paths, ∀ text programs, d.read path = .ok text →
        Text.readWorkload text = .ok programs →
        after.read path = .ok (Text.workloadText programs)) ∧
      (∀ path, after.resolve path = d.resolve path) ∧
      (∀ place, (∀ path ∈ paths, d.resolve path ≠ .ok place) →
        after.find place = d.find place) ∧
      after.folders = d.folders ∧
      (∀ check, (fmt paths check).perform chance after = ⟨0, "", "", after⟩) ∧
      ∀ path store options, (run path store options).perform chance after =
        { (run path store options).perform chance d with directory := after }) ∧
    ∃ status out, (fmt paths true).perform chance d = ⟨status, out, "", d⟩ ∧
      (status = 0 ∨ status = 1) ∧
      (status = 1 ↔ ∃ path ∈ paths, ∃ text programs, d.read path = .ok text ∧
        Text.readWorkload text = .ok programs ∧ text ≠ Text.workloadText programs) := by
  constructor
  · obtain ⟨out, after, hfmt, hformatted⟩ := exists_doFmt h "" false
    have hread : ∀ path ∈ paths, ∀ text programs, d.read path = .ok text →
        Text.readWorkload text = .ok programs →
        after.read path = .ok (Text.workloadText programs) := by
      intro path hmem text programs hread hprograms
      rw [← Text.canonical_of_ok hprograms]
      exact hformatted.read_of_mem hmem hread
    refine ⟨out, after, hfmt, hread, hformatted.resolve_eq, hformatted.unlisted,
      hformatted.folders, fun check => ?_, fun path store options => ?_⟩
    · refine doFmt_of_canonical (fun path hmem => ?_) check "" false
      obtain ⟨text, programs, htext, hprograms⟩ := h path hmem
      exact ⟨programs, hread path hmem text programs htext hprograms⟩
    · exact doRun_eq hformatted path store.store options
  · refine ⟨_, _, doFmt_check h "" false, ?_, ?_⟩
    · rw [Bool.false_or]
      split <;> simp
    · have hstale : paths.any (!d.isCanonical ·) = true ↔ ∃ path ∈ paths, ∃ text programs,
          d.read path = .ok text ∧ Text.readWorkload text = .ok programs ∧
            text ≠ Text.workloadText programs := by
        simp only [List.any_eq_true, Bool.not_eq_true']
        refine exists_congr fun path => and_congr_right fun hmem => ?_
        exact isCanonical_eq_false_iff (h path hmem)
      rw [← hstale, Bool.false_or]
      split <;> simp_all

/-- A workload with a comment, odd blanks and carriage returns. -/
def spacedText : String := "// first\r\n\tR( 0 ) ;W(1,+2); C\r\n\r\nC"

/-- A file that is not formatted, one that is, and one that is no workload. -/
def mixedFiles : Directory :=
  .ofFiles [("w/a", .text spacedText), ("w/b", .text "R(3);C\n"), ("w/notes", .text "R(")]

/-- The first file three times, once by another path. -/
def mixedPaths : List String := ["w/a", "w/b", "./w/..//w/a", "w/a"]

def noChance : Chance Unit :=
  ⟨fun _ _ _ => ⟨0, true, 0⟩, fun _ => ((), ()), ⟨fun _ => .null, fun _ => some ()⟩⟩

theorem fmt_keeps_meaning_mixed :
    (∃ out after, (fmt mixedPaths false).perform noChance mixedFiles = ⟨0, out, "", after⟩ ∧
      after.read "w/a" = .ok "R(0);W(1,2);C\nC\n" ∧ after.read "w/b" = .ok "R(3);C\n" ∧
      after.find (.ofPath "w/notes") = .file (.text "R(") ∧
      (fmt mixedPaths true).perform noChance after = ⟨0, "", "", after⟩) ∧
    ∃ out, (fmt mixedPaths true).perform noChance mixedFiles = ⟨1, out, "", mixedFiles⟩ := by
  have hfirst : Text.readWorkload spacedText =
      .ok [⟨[.read 0, .write 1 2, .commit], by decide⟩, ⟨[.commit], by decide⟩] := by
    decide +kernel
  have hsecond : Text.readWorkload "R(3);C\n" = .ok [⟨[.read 3, .commit], by decide⟩] := by
    decide +kernel
  have ha : mixedFiles.read "w/a" = .ok spacedText := by decide +kernel
  have ha' : mixedFiles.read "./w/..//w/a" = .ok spacedText := by decide +kernel
  have hb : mixedFiles.read "w/b" = .ok "R(3);C\n" := by decide +kernel
  have hholds : ∀ path ∈ mixedPaths, mixedFiles.HoldsWorkload path := by
    simp only [mixedPaths, List.forall_mem_cons]
    exact ⟨⟨_, _, ha, hfirst⟩, ⟨_, _, hb, hsecond⟩, ⟨_, _, ha', hfirst⟩, ⟨_, _, ha, hfirst⟩,
      List.forall_mem_nil _⟩
  obtain ⟨⟨out, after, hfmt, hread, -, hkept, -, hagain, -⟩, status, out', hcheck, -, hstatus⟩ :=
    fmt_keeps_meaning noChance hholds
  refine ⟨⟨out, after, hfmt, ?_, ?_, ?_, hagain true⟩, out', ?_⟩
  · rw [hread "w/a" (by decide) _ _ ha hfirst]
    decide +kernel
  · rw [hread "w/b" (by decide) _ _ hb hsecond]
    decide +kernel
  · rw [hkept _ (by decide +kernel)]
    decide +kernel
  · have hone : status = 1 := hstatus.2 ⟨"w/a", by decide, _, _, ha, hfirst, by decide +kernel⟩
    rw [hcheck, hone]

end Command

end TwoPhase

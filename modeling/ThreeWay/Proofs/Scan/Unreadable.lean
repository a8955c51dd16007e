import ThreeWay.Proofs.Scan.Refused

/-!
# A Scan With Files That Cannot Be Read

A file whose hash cannot be had costs a scan what it would have said of that file, and nothing else. The
scan ends as before, additions and deletions are the same, and of the modifications only those of the lost
files are missing. What is skipped instead are the lost files that the scan compares with the reference, each
of them once.

A file is lost where a hash is asked for, and whether one is asked for is settled before any file is read. So
the scan with the failures goes by the script of the scan without them, and the two answer it differently at
the lost files only. A lost file that is compared has left the reference like any other that was met, or is
one of those that are settled because they stand on the disk: in neither case is it taken for deleted.

Which files are compared is asked of the law of scans. It holds of scans that skip nothing; but the script is
the same for all hashes, so it may be asked of a scan in which every file has an id that the reference does
not expect. There the files that are compared are those that are reported as modified.

## Main definitions

* `Scanner.Compares`: A scan compares the file at a path with the reference.
* `Scanner.hashing`: A scanner with another way to hash.

## Theorems

* `modified_iff`: Where all questions have answers, modified is what is compared and has another id.
* `check_mem_script_iff`: The files that the script has a hash asked for.
* `mem_skipped_of_judged`: What is skipped, where the rules answer about every path.
* `scan_unreadable`: Lost files cost their own modifications.
-/

namespace ThreeWay

namespace Scanner

open ThreeWay.Path Run

/-- A scan compares the file at a path: the reference knows it, the rules do not leave it out, it is there, and
    it does not lie below an ignored folder, unless it is an ignore file. -/
structure Compares (c : Scanner) (members : Forest FileEntry Unit) (reference : Reference) (p : Path) :
    Prop where
  known : ∃ expected, reference.lookup p = some expected
  kept : ¬ c.Excluded p
  file : c.disk.isFile (c.root.join p.toRaw) = true
  shown : c.Hidden members p → c.rules.isRuleFile p = true

/-- The scanner with another way to hash files. -/
def hashing (c : Scanner) (hash : RawPath → Except Error ContentId) : Scanner :=
  { c with hash }

instance : Nontrivial ContentId :=
  ⟨⟨""⟩, ⟨"a"⟩, by decide⟩

section

variable {c : Scanner} {members : Forest FileEntry Unit} {reference : Reference} {p : Path}

theorem compares_hashing (hash : RawPath → Except Error ContentId) :
    (c.hashing hash).Compares members reference p ↔ c.Compares members reference p :=
  ⟨fun h => ⟨h.known, h.kept, h.file, h.shown⟩, fun h => ⟨h.known, h.kept, h.file, h.shown⟩⟩

variable (tree : c.disk.IsWorkingTree c.root members) (unique : Ascending Prod.fst reference)

include tree unique

/-- Where all questions have answers, a file is reported as modified if it is compared and has another id. -/
theorem modified_iff (answers : c.Answers) {o : Outcome} (h : Returns (c.scan (.ok reference)) o) :
    ⟨p, .modification⟩ ∈ o.changes ↔ c.Compares members reference p ∧
      ∃ expected, reference.lookup p = some expected ∧ c.Unequal p expected := by
  have clean := Answers.scan_clean tree answers h
  rcases returns_scan tree h with ⟨s₁, s₂, walked, settled, rfl⟩
  -- The walk and the settling compare alike, so it does not matter which of them comes to the path.
  refine (finds_iff_met_or_settled tree unique walked settled clean .modification).trans ⟨?_, ?_⟩
  · rintro (⟨⟨file, shown⟩, met⟩ | ⟨_, rules, expected, known, settled⟩)
    · cases known : reference.lookup p with
      | none =>
          rw [known] at met
          cases met
      | some expected =>
          rw [known] at met
          cases met with
          | changed _ kept unequal =>
              exact ⟨⟨⟨expected, known⟩, kept, file.isFile tree, fun hidden => absurd hidden shown⟩,
                expected, rfl, unequal⟩
    · cases settled with
      | changed kept file unequal => exact ⟨⟨⟨expected, known⟩, kept, file, rules⟩, expected, known, unequal⟩
  · rintro ⟨compares, expected, known, unequal⟩
    by_cases hmet : FileAt members p ∧ ¬ c.Hidden members p
    · rw [known]
      exact Or.inl ⟨hmet, Met.changed expected compares.kept unequal⟩
    · exact Or.inr ⟨hmet, compares.shown, expected, known,
        Settled.changed compares.kept compares.file unequal⟩

variable (judged : ∀ q isFolder, ∃ verdict, c.rules.isIgnored q isFolder = .ok verdict)

include judged

theorem nodup_of_judged : ((c.script members reference).map Step.path).Nodup := by
  refine nodup_script tree unique fun q e he => ?_
  rcases judged q true with ⟨verdict, hv⟩
  cases he.symm.trans hv

/-- A scan that gives every file one id reports as modified what its script compares with another one. -/
theorem check_mem_of_constant {id : ContentId} (hash : ∀ file, c.hash file = .ok id)
    (quiet : Signal.IsQuiet c.signal) :
    (∃ expected, Step.check p expected ∈ c.script members reference ∧ id ≠ expected) ↔
      c.Compares members reference p ∧ ∃ expected, reference.lookup p = some expected ∧ id ≠ expected := by
  have answers : c.Answers := ⟨judged, fun file => ⟨id, hash file⟩⟩
  have unequal : ∀ expected, c.Unequal p expected ↔ id ≠ expected := fun expected => by
    rw [Unequal, hash, ne_eq, Except.ok.injEq]
  rcases scan_gives quiet reference with ⟨o, ho⟩
  have law := modified_iff tree unique answers ho.returns (p := p)
  simp only [unequal, mem_changes_iff tree ho.returns (nodup_of_judged tree unique judged),
    Step.change?_eq_modification_iff] at law
  rw [← law]
  constructor
  · rintro ⟨expected, hs, hne⟩
    exact ⟨_, hs, expected, rfl, id, hash _, hne⟩
  · rintro ⟨step, hs, expected, rfl, found, hh, hne⟩
    cases (hash _).symm.trans hh
    exact ⟨expected, hs, hne⟩

/-- The script has a hash asked for where the file is compared. -/
theorem check_mem_script_iff (quiet : Signal.IsQuiet c.signal) :
    (∃ expected, Step.check p expected ∈ c.script members reference) ↔ c.Compares members reference p := by
  -- The script is the same for all hashes, and so is what is compared.
  have told : ∀ id, (∃ expected, Step.check p expected ∈ c.script members reference ∧ id ≠ expected) ↔
      c.Compares members reference p ∧ ∃ expected, reference.lookup p = some expected ∧ id ≠ expected := by
    intro id
    let c' := c.hashing fun _ => .ok id
    have tree' : c'.disk.IsWorkingTree c'.root members := tree
    rw [← compares_hashing fun _ => .ok id, ← check_mem_of_constant tree' unique judged (fun _ => rfl) quiet]
    rfl
  constructor
  · rintro ⟨expected, hs⟩
    rcases exists_ne expected with ⟨other, hne⟩
    exact ((told other).mp ⟨expected, hs, hne⟩).1
  · intro compares
    rcases compares.known with ⟨expected, known⟩
    rcases exists_ne expected with ⟨other, hne⟩
    rcases (told other).mpr ⟨compares, expected, known, hne⟩ with ⟨expected, hs, _⟩
    exact ⟨expected, hs⟩

omit unique in
/-- Where the rules have an answer about every path, the script leaves none because of them. -/
theorem refuse_not_mem_script (quiet : Signal.IsQuiet c.signal) (e : Error) :
    Step.refuse p e ∉ c.script members reference := by
  intro hs
  -- A scan with a hash of every file skips nothing, and it would skip this path.
  let c' := c.hashing fun _ => .ok ⟨""⟩
  have tree' : c'.disk.IsWorkingTree c'.root members := tree
  have answers : c'.Answers := ⟨judged, fun _ => ⟨_, rfl⟩⟩
  have quiet' : Signal.IsQuiet c'.signal := quiet
  rcases scan_gives quiet' reference with ⟨o, ho⟩
  have hm := (mem_skipped_iff tree' ho.returns).mpr ⟨_, hs, rfl⟩
  rw [Answers.scan_clean tree' answers ho.returns] at hm
  exact List.not_mem_nil hm

/-- What is skipped are the files that are compared and cannot be read. -/
theorem mem_skipped_of_judged (quiet : Signal.IsQuiet c.signal) {o : Outcome}
    (h : Returns (c.scan (.ok reference)) o) {skipped : Skipped} : skipped ∈ o.skipped ↔
      c.Compares members reference skipped.path ∧ c.hashAt skipped.path = .error skipped.reason := by
  rw [mem_skipped_iff tree h, ← check_mem_script_iff tree unique judged quiet]
  simp only [Step.skip?_eq_some_iff]
  constructor
  · rintro ⟨step, hs, ⟨expected, rfl, hh⟩ | rfl⟩
    · exact ⟨⟨expected, hs⟩, hh⟩
    · exact absurd hs (refuse_not_mem_script tree judged quiet _)
  · rintro ⟨⟨expected, hs⟩, hh⟩
    exact ⟨_, hs, Or.inl ⟨expected, rfl, hh⟩⟩

theorem mem_skipped_paths (quiet : Signal.IsQuiet c.signal) {o : Outcome}
    (h : Returns (c.scan (.ok reference)) o) : p ∈ o.skipped.map Skipped.path ↔
      c.Compares members reference p ∧ ∃ e, c.hashAt p = .error e := by
  rw [List.mem_map]
  constructor
  · rintro ⟨skipped, hs, rfl⟩
    rcases (mem_skipped_of_judged tree unique judged quiet h).mp hs with ⟨compares, failed⟩
    exact ⟨compares, _, failed⟩
  · rintro ⟨compares, e, failed⟩
    exact ⟨⟨p, e⟩, (mem_skipped_of_judged tree unique judged quiet h).mpr ⟨compares, failed⟩, rfl⟩

end

/-- With other answers, of which some are failures and the rest are the same, a step comes to what it came to,
    unless this was the modification of a lost file. -/
theorem change?_of_lost {hash hash' : Path → Except Error ContentId} {lost : Path → Bool}
    (fails : ∀ p, lost p = true → ∃ e, hash' p = .error e) (same : ∀ p, lost p = false → hash' p = hash p)
    {step : Step} {change : Change} : step.change? hash' = some change ↔
      step.change? hash = some change ∧ ¬ (change.kind = .modification ∧ lost change.path = true) := by
  -- Only a comparison asks for a hash; the other steps come to what they came to, and it is no modification.
  cases step with
  | add p =>
      refine ⟨fun h => ⟨h, ?_⟩, And.left⟩
      cases h
      rintro ⟨hk, _⟩
      cases hk
  | delete p =>
      refine ⟨fun h => ⟨h, ?_⟩, And.left⟩
      cases h
      rintro ⟨hk, _⟩
      cases hk
  | refuse p e =>
      refine ⟨fun h => ⟨h, ?_⟩, And.left⟩
      cases h
  | check p expected =>
      simp only [Step.change?_check_eq_some_iff]
      cases hl : lost p with
      | true =>
          rcases fails p hl with ⟨e, he⟩
          refine iff_of_false ?_ ?_
          · rintro ⟨_, found, hh, _⟩
            cases he.symm.trans hh
          · rintro ⟨⟨rfl, _⟩, kept⟩
            exact kept ⟨rfl, hl⟩
      | false =>
          rw [same p hl]
          refine (and_iff_left_of_imp ?_).symm
          rintro ⟨rfl, _⟩ ⟨_, hlost⟩
          cases hl.symm.trans hlost

/-- Files that cannot be read cost their own modifications and nothing else. The scan has an outcome all the
    same. Its changes are those of the scan with the other hashes, in order, without the modifications of the
    lost files. Besides what was skipped anyway, the lost files are skipped that the scan compares with the
    reference, each of them once and with the failure as the reason. -/
theorem scan_unreadable (c : Scanner) {members : Forest FileEntry Unit} {reference : Reference}
    (tree : c.disk.IsWorkingTree c.root members) (unique : Ascending Prod.fst reference)
    (judged : ∀ q isFolder, ∃ verdict, c.rules.isIgnored q isFolder = .ok verdict)
    (quiet : Signal.IsQuiet c.signal) (hash' : RawPath → Except Error ContentId) (lost : RawPath → Bool)
    (fails : ∀ file, lost file = true → ∃ e, hash' file = .error e)
    (same : ∀ file, lost file = false → hash' file = c.hash file) :
    ∃ o o', (c.scan (.ok reference)).outcome = .ok o ∧
      ((c.hashing hash').scan (.ok reference)).outcome = .ok o' ∧
      o'.changes = o.changes.filter
        (fun change => !(change.kind = .modification && lost (c.root.join change.path.toRaw))) ∧
      (o'.skipped.map Skipped.path).Nodup ∧
      (∀ p, p ∈ o'.skipped.map Skipped.path ↔
        (lost (c.root.join p.toRaw) = true ∧ c.Compares members reference p) ∨ p ∈ o.skipped.map Skipped.path) ∧
      (∀ skipped ∈ o'.skipped, hash' (c.root.join skipped.path.toRaw) = .error skipped.reason) ∧
      ((∀ file, ∃ id, c.hash file = .ok id) → o.skipped = []) := by
  let c' := c.hashing hash'
  have tree' : c'.disk.IsWorkingTree c'.root members := tree
  have quiet' : Signal.IsQuiet c'.signal := quiet
  rcases scan_gives quiet reference with ⟨o, ho⟩
  rcases scan_gives quiet' reference with ⟨o', ho'⟩
  have nodup := nodup_of_judged tree unique judged
  have reasons {skipped : Skipped} : skipped ∈ o'.skipped ↔ _ :=
    mem_skipped_of_judged tree' unique judged quiet' ho'.returns
  refine ⟨o, o', ho.outcome, ho'.outcome, ?_, nodup_skipped tree' ho'.returns nodup, fun p => ?_,
    fun skipped hs => (reasons.mp hs).2, fun hashes => Answers.scan_clean tree ⟨judged, hashes⟩ ho.returns⟩
  · -- Both lists are in order, so it is enough to know what is in them, and that is told step by step.
    refine (changes_ascending tree' ho'.returns).eq_of_mem_iff
      ((changes_ascending tree ho.returns).sublist List.filter_sublist) fun change => ?_
    have answered {step : Step} : step.change? c'.hashAt = some change ↔ _ :=
      change?_of_lost (fun p => fails (c.root.join p.toRaw)) (fun p => same (c.root.join p.toRaw))
    rw [List.mem_filter, mem_changes_iff tree' ho'.returns nodup, mem_changes_iff tree ho.returns nodup]
    simp only [answered, ← and_assoc, exists_and_right]
    refine and_congr_right fun _ => ?_
    rw [Bool.not_eq_true', Bool.and_eq_false_iff, decide_eq_false_iff_not, not_and_or, Bool.not_eq_true]
  · rw [mem_skipped_paths tree' unique judged quiet' ho'.returns,
      mem_skipped_paths tree unique judged quiet ho.returns, compares_hashing]
    cases hl : lost (c.root.join p.toRaw) with
    | true =>
        have failed : ∃ e, c'.hashAt p = .error e := fails _ hl
        simp only [failed, and_true, true_and]
        exact (or_iff_left_of_imp And.left).symm
    | false =>
        have hsame : c'.hashAt p = c.hashAt p := same _ hl
        rw [hsame]
        simp only [Bool.false_eq_true, false_and, false_or]

namespace Sample

/-- Two files that are no longer what the reference has of them, the ignore file of an ignored folder among
    them, and one that is gone. -/
def changed : Reference :=
  [(.ofString "a", ⟨"old"⟩), (.ofString "b/.gitignore", ⟨"old"⟩), (.ofString "d", ⟨"old"⟩)]

/-- The two files that are there. -/
def denied (file : RawPath) : Bool :=
  file = .ofString "/w/a" || file = .ofString "/w/b/.gitignore"

/-- A hash that cannot be had of them. -/
def denyingHash (file : RawPath) : Except Error ContentId :=
  if denied file then .error (.contentRead file.display (.other "denied")) else scanner.hash file

end Sample

open Scanner.Sample in
example : ((scanner.hashing denyingHash).scan (.ok changed)).outcome.map
      (fun o => (o.changes, o.skipped.map Skipped.path)) =
    .ok ([⟨.ofString "d", .deletion⟩], [.ofString "a", .ofString "b/.gitignore"]) := by
  cbv

open Scanner.Sample in
/-- Two files that cannot be read, one of them below an ignored folder. -/
theorem scan_unreadable_below_ignored :
    (scanner.disk.IsWorkingTree scanner.root members ∧ Ascending Prod.fst changed ∧
      (∀ q isFolder, ∃ verdict, scanner.rules.isIgnored q isFolder = .ok verdict) ∧
      Signal.IsQuiet scanner.signal ∧ (∀ file, denied file = true → ∃ e, denyingHash file = .error e) ∧
      ∀ file, denied file = false → denyingHash file = scanner.hash file) ∧
    ∃ o o', (scanner.scan (.ok changed)).outcome = .ok o ∧
      ((scanner.hashing denyingHash).scan (.ok changed)).outcome = .ok o' ∧
      o'.changes = o.changes.filter
        (fun change => !(change.kind = .modification && denied (scanner.root.join change.path.toRaw))) ∧
      (o'.skipped.map Skipped.path).Nodup ∧
      (∀ p, p ∈ o'.skipped.map Skipped.path ↔
        (denied (scanner.root.join p.toRaw) = true ∧ scanner.Compares members changed p) ∨
          p ∈ o.skipped.map Skipped.path) ∧
      (∀ skipped ∈ o'.skipped, denyingHash (scanner.root.join skipped.path.toRaw) = .error skipped.reason) ∧
      ((∀ file, ∃ id, scanner.hash file = .ok id) → o.skipped = []) := by
  have name : IsName (Utf8.encode "w") := by decide
  have tree : scanner.disk.IsWorkingTree scanner.root members :=
    ⟨⟨[], Disk.resolve_place name (by decide) (by decide) members⟩, by decide, by decide, by decide,
      by decide⟩
  have unique : Ascending Prod.fst changed := by decide
  have judged : ∀ q isFolder, ∃ verdict, scanner.rules.isIgnored q isFolder = .ok verdict :=
    fun _ _ => ⟨_, rfl⟩
  have quiet : Signal.IsQuiet scanner.signal := fun _ h => nomatch h
  have fails : ∀ file, denied file = true → ∃ e, denyingHash file = .error e :=
    fun _ hd => ⟨_, if_pos hd⟩
  have same : ∀ file, denied file = false → denyingHash file = scanner.hash file :=
    fun _ hd => if_neg (Bool.eq_false_iff.mp hd)
  exact ⟨⟨tree, unique, judged, quiet, fails, same⟩,
    scan_unreadable scanner tree unique judged quiet denyingHash denied fails same⟩

end Scanner

end ThreeWay

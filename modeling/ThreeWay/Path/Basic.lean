import ThreeWay.Text.Utf8

/-!
# Paths

The location of a file or folder below a root, in the one spelling that every other module uses as
its key.

A text becomes a path by *normalization*: a backslash counts as a slash, segments that are empty or a
single dot are dropped, and a slash at the front stays as one slash. Two dots stay, so a path may
still point above the root. The empty text is the root itself.

A `Path` carries the proof that normalization has nothing left to do on its text. The relations
between paths are read off the text: one path lies below another when its text continues the other's
with a slash.

## Main definitions

* `Path.normalize`: The normal form of a text.
* `Path`: A text in normal form.
* `Path.ofString`, `Path.ofBytes`: The path that a text or a byte string names.
* `Path.join`, `Path.parent?`, `Path.fileName?`: Moving down, moving up, and the last segment.
* `Path.startsWith`: Being another path or lying below it.

## Theorems

* `Path.normalize_normalize`: Normalizing a second time changes nothing.
-/

namespace ThreeWay

namespace Path

/-- A backslash counts as a slash. -/
def separator (c : Char) : Char :=
  if c = '\\' then '/' else c

/-- Whether a piece between two separators names a step: it is neither empty nor a single dot. -/
def isStep (piece : List Char) : Bool :=
  piece ≠ [] ∧ piece ≠ ['.']

/-- The steps of a text, in order. -/
def steps (cs : List Char) : List (List Char) :=
  ((cs.map separator).splitOn '/').filter isStep

/-- Whether a text starts with a separator. -/
def isRooted (cs : List Char) : Bool :=
  (cs.map separator).head? = some '/'

/-- The text that a list of steps makes. -/
def spell (rooted : Bool) (pieces : List (List Char)) : List Char :=
  if rooted then '/' :: ['/'].intercalate pieces else ['/'].intercalate pieces

/-- The normal form of a text: its steps joined by single slashes, after a slash if the text starts
    with one. -/
def normalize (cs : List Char) : List Char :=
  spell (isRooted cs) (steps cs)

/-- What every step of a normal form is: not empty, not a single dot, without separators. -/
def IsPlain (piece : List Char) : Prop :=
  isStep piece = true ∧ '/' ∉ piece ∧ '\\' ∉ piece

theorem separator_ne_backslash (c : Char) : separator c ≠ '\\' := by
  unfold separator
  split
  · decide
  · assumption

theorem separator_eq_self {c : Char} (h : c ≠ '\\') : separator c = c :=
  if_neg h

theorem map_separator_eq_self {cs : List Char} (h : '\\' ∉ cs) : cs.map separator = cs := by
  rw [List.map_congr_left (g := id), List.map_id]
  intro c hc
  exact separator_eq_self fun e => h (e ▸ hc)

theorem backslash_not_mem_map (cs : List Char) : '\\' ∉ cs.map separator := by
  rw [List.mem_map]
  rintro ⟨c, _, h⟩
  exact separator_ne_backslash c h

/-- The pieces between separators hold no separator. -/
theorem not_mem_of_mem_splitOn {α : Type} [BEq α] [LawfulBEq α] {x : α} {cs piece : List α}
    (h : piece ∈ cs.splitOn x) : x ∉ piece ∧ ∀ c ∈ piece, c ∈ cs := by
  induction cs generalizing piece with
  | nil => simp_all [List.splitOn_nil]
  | cons c cs ih =>
    rw [List.splitOn_cons_eq_if_modifyHead] at h
    split at h
    · rcases List.mem_cons.1 h with rfl | h
      · simp
      · exact ⟨(ih h).1, fun y hy => List.mem_cons_of_mem _ ((ih h).2 y hy)⟩
    · rename_i hc
      rcases hs : cs.splitOn x with _ | ⟨first, rest⟩
      · exact absurd hs (List.splitOn_ne_nil _ _)
      rw [hs] at h ih
      rcases List.mem_cons.1 h with rfl | h
      · have hf := ih (List.mem_cons_self ..)
        refine ⟨fun hm => ?_, fun y hy => ?_⟩
        · rcases List.mem_cons.1 hm with rfl | hm
          · exact hc (beq_self_eq_true _)
          · exact hf.1 hm
        · rcases List.mem_cons.1 hy with rfl | hy
          · exact List.mem_cons_self ..
          · exact List.mem_cons_of_mem _ (hf.2 y hy)
      · have hr := ih (List.mem_cons_of_mem _ h)
        exact ⟨hr.1, fun y hy => List.mem_cons_of_mem _ (hr.2 y hy)⟩

/-- The steps of a text are plain. -/
theorem isPlain_of_mem_steps {cs piece : List Char} (h : piece ∈ steps cs) : IsPlain piece := by
  rw [steps, List.mem_filter] at h
  have hp := not_mem_of_mem_splitOn h.1
  exact ⟨h.2, hp.1, fun hm => backslash_not_mem_map cs (hp.2 _ hm)⟩

theorem backslash_not_mem_intercalate {pieces : List (List Char)} (h : ∀ p ∈ pieces, IsPlain p) :
    '\\' ∉ ['/'].intercalate pieces := by
  induction pieces with
  | nil => simp
  | cons p rest ih =>
    rcases rest with _ | ⟨q, rest⟩
    · simpa using (h p (List.mem_cons_self ..)).2.2
    · rw [List.intercalate_cons_cons]
      have hp := (h p (List.mem_cons_self ..)).2.2
      have hr := ih fun x hx => h x (List.mem_cons_of_mem _ hx)
      simp only [List.mem_append, List.mem_singleton, not_or]
      exact ⟨⟨hp, by decide⟩, hr⟩

theorem filter_isStep_eq_self {pieces : List (List Char)} (h : ∀ p ∈ pieces, IsPlain p) :
    pieces.filter isStep = pieces :=
  List.filter_eq_self.2 fun p hp => (h p hp).1

/-- Plain pieces are read back from the text that they spell. -/
theorem steps_spell (rooted : Bool) {pieces : List (List Char)} (h : ∀ p ∈ pieces, IsPlain p) :
    steps (spell rooted pieces) = pieces := by
  have body : ((['/'].intercalate pieces).splitOn '/').filter isStep = pieces := by
    rcases pieces with _ | ⟨p, rest⟩
    · decide
    · rw [List.splitOn_intercalate _ (fun l hl => (h l hl).2.1) (by simp)]
      exact filter_isStep_eq_self h
  have clean := map_separator_eq_self (backslash_not_mem_intercalate h)
  rcases rooted with _ | _
  · rw [steps, spell, if_neg (by simp), clean, body]
  · rw [steps, spell, if_pos rfl, List.map_cons, clean,
      separator_eq_self (by decide), List.splitOn_cons_eq_if_modifyHead]
    rw [if_pos (beq_self_eq_true _), List.filter_cons_of_neg (by decide), body]

theorem head?_intercalate {pieces : List (List Char)} (h : ∀ p ∈ pieces, IsPlain p) :
    (['/'].intercalate pieces).head? ≠ some '/' := by
  rcases pieces with _ | ⟨p, rest⟩
  · simp
  · have hp := h p (List.mem_cons_self ..)
    rcases p with _ | ⟨c, p⟩
    · exact absurd hp.1 (by decide)
    · rw [List.intercalate_cons_cons_left, List.head?_cons]
      intro hc
      exact hp.2.1 (by rw [Option.some.inj hc]; exact List.mem_cons_self ..)

/-- The slash at the front is read back from the text that plain pieces spell. -/
theorem isRooted_spell (rooted : Bool) {pieces : List (List Char)} (h : ∀ p ∈ pieces, IsPlain p) :
    isRooted (spell rooted pieces) = rooted := by
  rcases rooted with _ | _
  · rw [isRooted, spell, if_neg (by simp),
      map_separator_eq_self (backslash_not_mem_intercalate h)]
    exact decide_eq_false (head?_intercalate h)
  · rw [isRooted, spell, if_pos rfl, List.map_cons, separator_eq_self (by decide)]
    rfl

/-- Normalizing a second time changes nothing. -/
theorem normalize_normalize (cs : List Char) : normalize (normalize cs) = normalize cs := by
  have h : ∀ p ∈ steps cs, IsPlain p := fun _ hp => isPlain_of_mem_steps hp
  rw [normalize, normalize, isRooted_spell _ h, steps_spell _ h]

end Path

/-- A location below a root: a text in normal form. -/
structure Path where
  text : String
  normal : Path.normalize text.toList = text.toList
deriving DecidableEq

namespace Path

/-- The path that a list of characters names. -/
def ofChars (cs : List Char) : Path where
  text := String.ofList (normalize cs)
  normal := by rw [String.toList_ofList]; exact normalize_normalize cs

/-- The path that a text names. -/
def ofString (s : String) : Path :=
  ofChars s.toList

/-- The path that a byte string names; invalid parts of it become replacement characters. -/
def ofBytes (bs : Bytes) : Path :=
  ofString (Utf8.decodeLossy bs)

/-- The root, whose text is empty. -/
def root : Path :=
  ofString ""

instance : Inhabited Path := ⟨root⟩

instance : ToString Path := ⟨text⟩

/-- Paths are ordered by the code points of their text, which is the byte order of its encoding. -/
instance : Ord Path := ⟨fun p q => compare p.text q.text⟩

instance : LT Path := ⟨fun p q => p.text < q.text⟩

instance (p q : Path) : Decidable (p < q) :=
  inferInstanceAs (Decidable (p.text < q.text))

/-- The characters of a path. -/
def chars (p : Path) : List Char :=
  p.text.toList

/-- The steps of a path, from the root down. -/
def segments (p : Path) : List (List Char) :=
  steps p.chars

/-- Whether a path is the root. -/
def isRoot (p : Path) : Bool :=
  p.text = ""

/-- Whether a path starts at the root of the file system instead of the root of the tree. -/
def isAbsolute (p : Path) : Bool :=
  p.chars.head? = some '/'

/-- The bytes of a path. -/
def toBytes (p : Path) : Bytes :=
  Utf8.encode p.text

/-- A path and one more segment; a segment with separators adds each of its steps. -/
def join (p : Path) (segment : String) : Path :=
  if p.isRoot then ofString segment else ofChars (p.chars ++ '/' :: segment.toList)

/-- The text before the last slash and the text after it. -/
def splitLast (cs : List Char) : Option (List Char) × List Char :=
  match cs with
  | [] => (none, [])
  | c :: rest =>
    match splitLast rest with
    | (some front, last) => (some (c :: front), last)
    | (none, last) => if c = '/' then (some [], last) else (none, c :: last)

/-- The folder that holds a path. The root has none and the lone slash has none; a path of one
    segment lies in the root. -/
def parent? (p : Path) : Option Path :=
  if p.isRoot ∨ p.text = "/" then none
  else
    match splitLast p.chars with
    | (none, _) => some root
    -- Nothing stands before the slash: the path lies right below the root of the file system.
    | (some [], _) => some (ofString "/")
    | (some front, _) => some (ofChars front)

/-- The last segment. The root has none, and the lone slash has an empty one. -/
def fileName? (p : Path) : Option String :=
  if p.isRoot then none else some (String.ofList (splitLast p.chars).2)

/-- The last segment, empty where there is none. -/
def fileName (p : Path) : String :=
  p.fileName?.getD ""

/-- Whether a path is `folder` or lies below it: its text continues that of `folder` with a slash.
    Everything lies below the root. -/
def startsWith (p folder : Path) : Bool :=
  folder.isRoot || p = folder || (folder.chars ++ ['/']).isPrefixOf p.chars

/-- The folders above a path, nearest first. -/
def ancestors (p : Path) : List Path :=
  climb p.chars.length p
where
  /-- The parent, its parent, and so on, at most `n` of them. -/
  climb : Nat → Path → List Path
    | 0, _ => []
    | n + 1, p =>
      match p.parent? with
      | none => []
      | some q => q :: climb n q

end Path

end ThreeWay

import Codex.Std.Text

/-!
# Codex — paths

`std::path::Path` on Unix and the `AbsolutePathBuf` of `utils/absolute-path`.

A `PathBuf` is what `Path::components` yields: whether the path starts at the
root, and its components (the root itself is not listed). An `AbsolutePathBuf`
is absolute *and* normalized, so it is no more than its list of names; the
invariant is the type, and `starts_with` is list prefix.

`normalizePath` resolves `.` and `..` lexically, as `absolutize.rs` does: it
never looks at the file system. What does look at the process environment
(`home_dir`, the current directory) is collected in `PathEnv`.
-/

namespace Codex

open List

/-- `std::path::Component`, without the Windows prefix and the root. -/
inductive Component where
  | curDir
  | parentDir
  | normal (name : String)
  deriving DecidableEq, Repr

structure PathBuf where
  hasRoot : Bool
  components : List Component
  deriving DecidableEq, Repr

/-- A path that is absolute and normalized: the names below the root. -/
@[ext]
structure AbsolutePathBuf where
  components : List String
  deriving DecidableEq, Repr

/-- What path resolution reads from the process. -/
structure PathEnv where
  homeDir : Option PathBuf
  currentDir : Option AbsolutePathBuf

/-! ## Lexical normalization -/

/-- One step of `normalize_path`: `..` pops, `.` is skipped. -/
def pushComponent (names : List String) : Component → List String
  | .curDir => names
  | .parentDir => names.dropLast
  | .normal name => names ++ [name]

/-- The names `normalize_path` leaves of a component list. -/
def normalizeComponents (cs : List Component) : List String :=
  cs.foldl pushComponent []

namespace PathBuf

/-- `Path::components` of a path string: repeated separators and inner `.` vanish. -/
def ofText (t : Text) : PathBuf :=
  let hasRoot := Text.startsWith ['/'] t
  let parts := (Text.split '/' t).filter (· ≠ [])
  let component (part : Text) : Component :=
    if part = ['.', '.'] then .parentDir else .normal (String.ofList part)
  { hasRoot
    components :=
      if !hasRoot && parts.head? = some ['.'] then
        .curDir :: (parts.filter (· ≠ ['.'])).map component
      else (parts.filter (· ≠ ['.'])).map component }

/-- `Path::join`: an absolute right-hand side replaces the left. -/
def join (base path : PathBuf) : PathBuf :=
  if path.hasRoot then path
  else { base with components := base.components ++ path.components }

/-- `absolutize.rs: normalize_path`: a relative path of which nothing is left is `.`. -/
def normalizePath (p : PathBuf) : PathBuf :=
  match p.hasRoot, normalizeComponents p.components with
  | false, [] => { hasRoot := false, components := [.curDir] }
  | hasRoot, names => { hasRoot, components := names.map .normal }

/-- `absolutize.rs: absolutize_from`. -/
def absolutizeFrom (path base : PathBuf) : PathBuf :=
  normalizePath (base.join path)

/-- `AbsolutePathBuf::maybe_expand_home_directory`: `~` and `~/…`, never `~user`. -/
def maybeExpandHomeDirectory (env : PathEnv) (path : PathBuf) : PathBuf :=
  match env.homeDir, path.hasRoot, path.components with
  | some home, false, .normal "~" :: rest => home.join { hasRoot := false, components := rest }
  | _, _, _ => path

/-- `Path::file_name`: the last component, if it is a name. -/
def fileName (p : PathBuf) : Option Text :=
  match p.components.getLast? with
  | some (.normal name) => some name.toList
  | _ => none

/-- A file name up to its last dot, unless that leaves nothing. -/
def stem (name : Text) : Text :=
  let before := ((name.reverse.dropWhile (· ≠ '.')).drop 1).reverse
  if before = [] then name else before

/-- `Path::file_stem`. -/
def fileStem (p : PathBuf) : Option Text := p.fileName.map stem

/-- `Path::display`. -/
def display (p : PathBuf) : Text :=
  let name : Component → Text
    | .curDir => ['.']
    | .parentDir => ['.', '.']
    | .normal n => n.toList
  (if p.hasRoot then ['/'] else []) ++ Text.join ['/'] (p.components.map name)

end PathBuf

namespace AbsolutePathBuf

def toPathBuf (p : AbsolutePathBuf) : PathBuf :=
  { hasRoot := true, components := p.components.map .normal }

/-- `AbsolutePathBuf::resolve_path_against_base`, for an absolute base. -/
def resolvePathAgainstBase (env : PathEnv) (path : PathBuf) (base : AbsolutePathBuf) :
    AbsolutePathBuf :=
  ⟨normalizeComponents (base.toPathBuf.join (path.maybeExpandHomeDirectory env)).components⟩

/-- `AbsolutePathBuf::join`. -/
def join (env : PathEnv) (base : AbsolutePathBuf) (path : PathBuf) : AbsolutePathBuf :=
  resolvePathAgainstBase env path base

/-- `AbsolutePathBuf::from_absolute_path`: a relative path is taken from the
current directory, whose lookup may fail. -/
def fromAbsolutePath (env : PathEnv) (path : PathBuf) : Option AbsolutePathBuf :=
  let expanded := path.maybeExpandHomeDirectory env
  if expanded.hasRoot then some ⟨normalizeComponents expanded.components⟩
  else env.currentDir.map fun dir =>
    ⟨normalizeComponents (dir.toPathBuf.join expanded).components⟩

/-- The filesystem root. -/
def root : AbsolutePathBuf := ⟨[]⟩

def display (p : AbsolutePathBuf) : Text := p.toPathBuf.display

/-- `Path::starts_with` between normalized absolute paths. -/
def startsWith (p base : AbsolutePathBuf) : Bool :=
  base.components.isPrefixOf p.components

/-- `Path::ancestors`: the path itself first, the root last. -/
def ancestors (p : AbsolutePathBuf) : List AbsolutePathBuf :=
  p.components.inits.reverse.map .mk

/-- `Path::parent`. -/
def parent (p : AbsolutePathBuf) : Option AbsolutePathBuf :=
  if p.components = [] then none else some ⟨p.components.dropLast⟩

theorem startsWith_iff {p base : AbsolutePathBuf} :
    p.startsWith base = true ↔ base.components <+: p.components :=
  isPrefixOf_iff_prefix

end AbsolutePathBuf

/-! ## Normalized paths resolve to themselves -/

theorem foldl_pushComponent_normal (acc names : List String) :
    (names.map Component.normal).foldl pushComponent acc = acc ++ names := by
  induction names generalizing acc with
  | nil => simp
  | cons n rest ih => simp [pushComponent, ih]

@[simp] theorem normalizeComponents_normal (names : List String) :
    normalizeComponents (names.map .normal) = names := by
  unfold normalizeComponents
  simpa using foldl_pushComponent_normal [] names

/-- Only a relative path can mention the home directory. -/
@[simp] theorem maybeExpandHomeDirectory_toPathBuf (env : PathEnv) (p : AbsolutePathBuf) :
    p.toPathBuf.maybeExpandHomeDirectory env = p.toPathBuf := by
  unfold PathBuf.maybeExpandHomeDirectory
  split
  · rename_i h _
    simp [AbsolutePathBuf.toPathBuf] at h
  · rfl

@[simp] theorem fromAbsolutePath_toPathBuf (env : PathEnv) (p : AbsolutePathBuf) :
    AbsolutePathBuf.fromAbsolutePath env p.toPathBuf = some p := by
  unfold AbsolutePathBuf.fromAbsolutePath
  simp only [maybeExpandHomeDirectory_toPathBuf]
  simp [AbsolutePathBuf.toPathBuf]

/-! ## The name of a file is part of its path -/

theorem sublist_intercalate {sep part : Text} {parts : List Text} (h : part ∈ parts) :
    part.Sublist (sep.intercalate parts) := by
  induction parts with
  | nil => exact absurd h not_mem_nil
  | cons first rest ih =>
    rcases rest with _ | ⟨second, rest⟩
    · obtain rfl := mem_singleton.mp h
      simp
    rw [intercalate_cons_cons]
    rcases mem_cons.mp h with rfl | hRest
    · simp
    · exact (ih hRest).trans (sublist_append_right _ _)

theorem sublist_of_fileName {t name : Text} (h : (PathBuf.ofText t).fileName = some name) :
    name.Sublist t := by
  unfold PathBuf.fileName at h
  split at h
  · rename_i last hLast
    cases h
    have hMem := mem_of_getLast? hLast
    -- the name is one of the parts between the separators
    have hFrom : ∃ part ∈ Text.split '/' t,
        (if part = ['.', '.'] then Component.parentDir else .normal (String.ofList part)) =
          .normal last := by
      unfold PathBuf.ofText at hMem
      dsimp only at hMem
      have hParts {cs : List Component} {parts : List Text}
          (hcs : cs = ((parts.filter (· ≠ [])).filter (· ≠ ['.'])).map fun part =>
            if part = ['.', '.'] then Component.parentDir else .normal (String.ofList part))
          (hLast : Component.normal last ∈ cs) :
          ∃ part ∈ parts, (if part = ['.', '.'] then Component.parentDir
            else .normal (String.ofList part)) = .normal last := by
        subst hcs
        obtain ⟨part, hPart, hEq⟩ := mem_map.mp hLast
        exact ⟨part, mem_of_mem_filter (mem_of_mem_filter hPart), hEq⟩
      split_ifs at hMem
      · rcases mem_cons.mp hMem with hCur | hRest
        · cases hCur
        · exact hParts rfl hRest
      · exact hParts rfl hMem
    obtain ⟨part, hMemPart, hEq⟩ := hFrom
    split_ifs at hEq
    cases hEq
    rw [String.toList_ofList]
    have hSub : part.Sublist ((['/'] : Text).intercalate (Text.split '/' t)) :=
      sublist_intercalate hMemPart
    rw [Text.split, intercalate_splitOn] at hSub
    exact hSub
  · cases h

theorem stem_sublist (name : Text) : (PathBuf.stem name).Sublist name := by
  unfold PathBuf.stem
  dsimp only
  split_ifs
  · exact .refl _
  · rw [← sublist_reverse_iff]
    exact (drop_sublist _ _).trans (dropWhile_sublist _)

end Codex

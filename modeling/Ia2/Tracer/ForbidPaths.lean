import Ia2.Library.Paths

/-!
# Forbidding paths

Landlock rules only allow, so to forbid paths the tracer allows everything else: it walks the file
tree from the root, allows whole what neither is nor contains a forbidden path, and goes on beneath
what contains one, allowing it shallowly. Paths are compared as text.

The walk reaches an entry only through directories that contain a forbidden path and are not
forbidden themselves. So what it allows whole is neither at, above nor beneath a forbidden path, and
whatever is none of these lies at or beneath the first directory on its path that contains no
forbidden path, which the walk reaches and allows.
-/

namespace Ia2.ForbidPaths

open Paths

/-! ### The callback -/

def segmentPrefixLoop : List Char → List Char → Bool
  | path, [] => path = [] ∨ path.head? = some '/'
  | [], _ :: _ => false
  | p :: path, q :: start => if p = q then segmentPrefixLoop path start else false

def pathHasSegmentPrefix (path start : List Char) :
    Bool := if start = ['/'] then true else segmentPrefixLoop path start

inductive TypeFlag where
  | f | d | dnr | ns | sl
deriving DecidableEq, Repr

/-- What the callback tells the walk to do. A walk that is stopped leaves the return value of
`allow_path` in `ctx.error`. -/
inductive Action where
  | continue_ | skipSubtree
  | stop (error : Int)
deriving DecidableEq, Repr

structure Grant where
  path : List Char
  shallow : Bool
deriving DecidableEq, Repr

def scanForbidden (fpath : List Char) : List (List Char) → Bool × Bool
  | [] => (false, false)
  | forbidden :: rest =>
    let prefixMatches := pathHasSegmentPrefix forbidden fpath
    if forbidden = fpath then (prefixMatches, true)
    else
      let (contains, isForbidden) := scanForbidden fpath rest
      (prefixMatches || contains, isForbidden)

def forbidDeepOrShallow (allowPath : List Char → Bool → Int) (forbiddenPaths : List (List Char))
    (fpath : List Char) (typeflag : TypeFlag) : List Grant × Action :=
  let (containsForbiddenPath, isForbiddenPath) := scanForbidden fpath forbiddenPaths
  if isForbiddenPath then ([], .skipSubtree)
  -- symbolic links are neither allowed nor followed
  else if typeflag = .sl then ([], .skipSubtree)
  else if containsForbiddenPath then
    let ret := allowPath fpath true
    if ret < 0 then ([], .stop ret) else ([⟨fpath, true⟩], .continue_)
  else
    let ret := allowPath fpath false
    let grants := if ret < 0 then [] else [⟨fpath, false⟩]
    let inProc := "/proc/".toList.isPrefixOf fpath
    if ret < 0 ∧ ¬ inProc then (grants, .stop ret)
    else if typeflag = .d ∨ typeflag = .dnr then (grants, .skipSubtree)
    else (grants, .continue_)

/-! ### The walk -/

mutual

/-- What is at a path. -/
inductive FileTree where
  | file
  | symlink
  | dir (entries : DirEntries)

inductive DirEntries where
  | nil
  | cons (name : Name) (tree : FileTree) (rest : DirEntries)

end

def FileTree.typeFlag : FileTree → TypeFlag
  | file => .f
  | symlink => .sl
  | dir _ => .d

mutual

def nftw (callback : List Char → TypeFlag → List Grant × Action) (fpath : List Char) :
    FileTree → List Grant × Option Int
  | .file =>
    match callback fpath .f with
    | (grants, .stop error) => (grants, some error)
    | (grants, _) => (grants, none)
  | .symlink =>
    match callback fpath .sl with
    | (grants, .stop error) => (grants, some error)
    | (grants, _) => (grants, none)
  | .dir entries =>
    match callback fpath .d with
    | (grants, .stop error) => (grants, some error)
    | (grants, .skipSubtree) => (grants, none)
    | (grants, .continue_) =>
      (grants ++ (nftwDir callback fpath entries).1, (nftwDir callback fpath entries).2)

def nftwDir (callback : List Char → TypeFlag → List Grant × Action) (dir : List Char) :
    DirEntries → List Grant × Option Int
  | .nil => ([], none)
  | .cons name tree rest =>
    match nftw callback (child dir name.val) tree with
    | (grants, some error) => (grants, some error)
    | (grants, none) => (grants ++ (nftwDir callback dir rest).1, (nftwDir callback dir rest).2)

end

/-- The grants of a walk from the root, and the error that `forbid_paths` returns. -/
def forbidPaths (allowPath : List Char → Bool → Int) (forbiddenPaths : List (List Char))
    (root : FileTree) : List Grant × Int :=
  let (grants, error) := nftw (forbidDeepOrShallow allowPath forbiddenPaths) ['/'] root
  (grants, error.getD 0)

/-! ### Text and paths -/

theorem segmentPrefixLoop_names (p q : List Char) (hp : '/' ∉ p) (hq : '/' ∉ q) {x y : List Char}
    (hx : x = [] ∨ ∃ r, x = '/' :: r) (hy : y = [] ∨ ∃ r, y = '/' :: r) :
    segmentPrefixLoop (p ++ x) (q ++ y) = (decide (p = q) && segmentPrefixLoop x y) := by
  induction p generalizing q with
  | nil =>
    cases q with
    | nil => simp
    | cons c q =>
      have hc : '/' ≠ c := fun h => hq (h ▸ List.mem_cons_self)
      rcases hx with rfl | ⟨r, rfl⟩ <;> simp [segmentPrefixLoop, hc]
  | cons c p ih =>
    cases q with
    | nil =>
      have hc : c ≠ '/' := fun h => hp (by simp [h])
      rcases hy with rfl | ⟨r, rfl⟩ <;> simp [segmentPrefixLoop, hc]
    | cons d q =>
      rw [List.cons_append, List.cons_append, segmentPrefixLoop,
        ih q (fun h => hp (by simp [h])) (fun h => hq (by simp [h]))]
      by_cases hcd : c = d <;> simp [hcd]

theorem segmentPrefixLoop_body (path start : Path) :
    segmentPrefixLoop (body path) (body start) = true ↔ start <+: path := by
  induction start generalizing path with
  | nil =>
    rcases head_body path with h | ⟨r, h⟩ <;> rw [h] <;> simp [body, segmentPrefixLoop]
  | cons q start ih =>
    cases path with
    | nil => simp [body, segmentPrefixLoop]
    | cons p path =>
      have hnames := segmentPrefixLoop_names p.val q.val p.property.2 q.property.2 (head_body path)
        (head_body start)
      rw [body_cons, body_cons, segmentPrefixLoop, if_pos rfl, hnames, Bool.and_eq_true,
        decide_eq_true_iff, ih,
        List.cons_prefix_cons, ← Subtype.ext_iff]
      exact and_congr_left' eq_comm

theorem pathHasSegmentPrefix_iff (path start : Path) :
    pathHasSegmentPrefix (text path) (text start) = true ↔ start <+: path := by
  rw [pathHasSegmentPrefix]
  by_cases hstart : start = []
  · simp [hstart, text]
  · rw [if_neg (text_ne_slash hstart), text, text, if_neg hstart]
    split
    case isTrue hpath =>
      obtain ⟨q, start, rfl⟩ := List.exists_cons_of_ne_nil hstart
      obtain ⟨c, q', hq⟩ := List.exists_cons_of_ne_nil q.property.1
      simp [hpath, body_cons, hq, segmentPrefixLoop]
    case isFalse => exact segmentPrefixLoop_body path start

theorem text_inj {path path' : Path} (h : text path = text path') : path = path' := by
  have hpath := (pathHasSegmentPrefix_iff path path).mpr (List.prefix_refl path)
  have hle : path <+: path' := (pathHasSegmentPrefix_iff path' path).mp (h ▸ hpath)
  have hge : path' <+: path := (pathHasSegmentPrefix_iff path path').mp (h ▸ hpath)
  exact hle.eq_of_length (Nat.le_antisymm hle.length_le hge.length_le)

/-! ### One entry -/

section Walk

variable {allowPath : List Char → Bool → Int} {forbidden : List Path} {path : Path}

theorem scanForbidden_snd :
    (scanForbidden (text path) (forbidden.map text)).2 = true ↔ path ∈ forbidden := by
  induction forbidden with
  | nil => simp [scanForbidden]
  | cons first rest ih =>
    rw [List.map_cons, scanForbidden]
    by_cases hfirst : text first = text path
    · simp [text_inj hfirst]
    · have hne : path ≠ first := fun h => hfirst (h ▸ rfl)
      simp [hfirst, hne, ih]

theorem scanForbidden_fst (h : path ∉ forbidden) :
    (scanForbidden (text path) (forbidden.map text)).1 = true ↔ ∃ f ∈ forbidden, path <+: f := by
  induction forbidden with
  | nil => simp [scanForbidden]
  | cons first rest ih =>
    rw [List.mem_cons, not_or] at h
    obtain ⟨hne, hrest⟩ := h
    rw [List.map_cons, scanForbidden, if_neg fun heq => hne (text_inj heq).symm]
    simp only [Bool.or_eq_true, pathHasSegmentPrefix_iff, ih hrest, List.exists_mem_cons_iff]

def Reached (forbidden : List Path) (path : Path) : Prop := ∀ f ∈ forbidden, f <+: path → f = path

def Spared (forbidden : List Path) (path : Path) :
    Prop := ∀ f ∈ forbidden, ¬ path <+: f ∧ ¬ f <+: path

theorem reached_root (forbidden : List Path) : Reached forbidden [] :=
  fun _ _ h => List.prefix_nil.mp h

theorem Reached.child (h : Reached forbidden path) (hpath : path ∉ forbidden) (name : Name) :
    Reached forbidden (path ++ [name]) := by
  intro f hf hle
  rcases List.prefix_concat_iff.mp hle with heq | hle
  · exact heq
  · exact absurd (h f hf hle ▸ hf) hpath

theorem forbidDeepOrShallow_cases (allowPath : List Char → Bool → Int) (forbidden : List Path)
    (path : Path) (flag : TypeFlag) :
    (path ∈ forbidden ∨ flag = .sl) ∧ forbidDeepOrShallow allowPath (forbidden.map text) (text path)
      flag = ([], .skipSubtree) ∨
    (path ∉ forbidden ∧ flag ≠ .sl ∧ (∃ f ∈ forbidden, path <+: f) ∧
      forbidDeepOrShallow allowPath (forbidden.map text) (text path) flag =
        if allowPath (text path) true < 0 then ([], .stop (allowPath (text path) true))
          else ([⟨text path, true⟩], .continue_)) ∨
    (path ∉ forbidden ∧ flag ≠ .sl ∧ (∀ f ∈ forbidden, ¬ path <+: f) ∧
      ∃ action, forbidDeepOrShallow allowPath (forbidden.map text) (text path) flag =
          (if allowPath (text path) false < 0 then [] else [⟨text path, false⟩], action) ∧
        (flag = .d → action ≠ .continue_) ∧ (0 ≤ allowPath (text path) false → ∀ error,
          action ≠ .stop error)) := by
  by_cases hmem : path ∈ forbidden
  · refine .inl ⟨.inl hmem, ?_⟩
    simp [forbidDeepOrShallow, scanForbidden_snd.mpr hmem]
  have hscan : (scanForbidden (text path) (forbidden.map text)).2 = false :=
    Bool.eq_false_iff.mpr fun h => hmem (scanForbidden_snd.mp h)
  by_cases hlink : flag = .sl
  · refine .inl ⟨.inr hlink, ?_⟩
    simp [forbidDeepOrShallow, hscan, hlink]
  by_cases hcontains : ∃ f ∈ forbidden, path <+: f
  · refine .inr (.inl ⟨hmem, hlink, hcontains, ?_⟩)
    simp [forbidDeepOrShallow, hscan, hlink, (scanForbidden_fst hmem).mpr hcontains]
  · have hfst : (scanForbidden (text path) (forbidden.map text)).1 = false :=
      Bool.eq_false_iff.mpr fun h => hcontains ((scanForbidden_fst hmem).mp h)
    refine .inr (.inr ⟨hmem, hlink, fun f hf hle => hcontains ⟨f, hf, hle⟩, ?_⟩)
    simp only [forbidDeepOrShallow, hscan, hfst, hlink, Bool.false_eq_true, if_false]
    split
    case isTrue hfail => exact ⟨_, rfl, by simp, fun hok => absurd hfail.1 (Int.not_lt.mpr hok)⟩
    case isFalse =>
      split
      · exact ⟨_, rfl, by simp, by simp⟩
      · rename_i hflag
        exact ⟨_, rfl, fun hd => absurd (.inl hd) hflag, by simp⟩

theorem forbidDeepOrShallow_sound (allowPath : List Char → Bool → Int)
    (hreached : Reached forbidden path) (flag : TypeFlag) :
    (∀ g ∈ (forbidDeepOrShallow allowPath (forbidden.map text) (text path) flag).1,
      g.shallow = false →
      ∃ p, g.path = text p ∧ Spared forbidden p) ∧
    ((forbidDeepOrShallow allowPath (forbidden.map text) (text path) flag).2 = .continue_ →
      path ∉ forbidden) := by
  rcases forbidDeepOrShallow_cases allowPath forbidden path flag with
    ⟨-, hcall⟩ | ⟨hmem, -, -, hcall⟩ | ⟨hmem, -, habove, action, hcall, -⟩
  · simp [hcall]
  · refine ⟨fun g hg hfull => ?_, fun _ => hmem⟩
    rw [hcall] at hg
    split at hg
    · simp at hg
    · simp [List.mem_singleton.mp hg] at hfull
  · refine ⟨fun g hg _ => ⟨path, ?_, fun f hf =>
      ⟨habove f hf, fun hle => hmem (hreached f hf hle ▸ hf)⟩⟩, fun _ => hmem⟩
    rw [hcall] at hg
    dsimp only at hg
    split at hg
    · simp at hg
    · rw [List.mem_singleton.mp hg]

theorem forbidDeepOrShallow_ne_stop (hallow : ∀ p shallow, 0 ≤ allowPath p shallow)
    (forbidden : List Path) (path : Path) (flag : TypeFlag) (error : Int) :
    (forbidDeepOrShallow allowPath (forbidden.map text) (text path) flag).2 ≠ .stop error := by
  rcases forbidDeepOrShallow_cases allowPath forbidden path flag with
    ⟨-, hcall⟩ | ⟨-, -, -, hcall⟩ | ⟨-, -, -, action, hcall, -, hgo⟩
  · simp [hcall]
  · simp [hcall, Int.not_lt.mpr (hallow (text path) true)]
  · rw [hcall]
    exact hgo (hallow _ _) error

/-! ### The whole walk -/

mutual

theorem nftw_sound (tree : FileTree) {path : Path} (hreached : Reached forbidden path) :
    ∀ g ∈ (nftw (forbidDeepOrShallow allowPath (forbidden.map text)) (text path) tree).1,
      g.shallow = false →
      ∃ p, g.path = text p ∧ Spared forbidden p := by
  match tree with
  | .file =>
    have hcall := (forbidDeepOrShallow_sound allowPath hreached .f).1
    rw [nftw]
    split <;> simp_all
  | .symlink =>
    have hcall := (forbidDeepOrShallow_sound allowPath hreached .sl).1
    rw [nftw]
    split <;> simp_all
  | .dir entries =>
    obtain ⟨hcall, hcontinue⟩ := forbidDeepOrShallow_sound allowPath hreached .d
    rw [nftw]
    split
    · simp_all
    · simp_all
    · rename_i grants heq
      rw [heq] at hcall hcontinue
      intro g hg hfull
      rcases List.mem_append.mp hg with hg | hg
      · exact hcall g hg hfull
      · exact nftwDir_sound entries hreached (hcontinue rfl) g hg hfull

theorem nftwDir_sound (entries : DirEntries) {path : Path} (hreached : Reached forbidden path)
    (hmem : path ∉ forbidden) :
    ∀ g ∈ (nftwDir (forbidDeepOrShallow allowPath (forbidden.map text)) (text path) entries).1,
      g.shallow = false →
      ∃ p, g.path = text p ∧ Spared forbidden p := by
  match entries with
  | .nil => simp [nftwDir]
  | .cons name tree rest =>
    have htree := nftw_sound tree (hreached.child hmem name)
    rw [nftwDir, child_text]
    split
    · simp_all
    · rename_i grants heq
      rw [heq] at htree
      intro g hg hfull
      rcases List.mem_append.mp hg with hg | hg
      · exact htree g hg hfull
      · exact nftwDir_sound rest hreached hmem g hg hfull

end

mutual

theorem nftw_snd (hallow : ∀ p shallow, 0 ≤ allowPath p shallow) (forbidden : List Path)
    (tree : FileTree) (path : Path) :
    (nftw (forbidDeepOrShallow allowPath (forbidden.map text)) (text path) tree).2 = none := by
  match tree with
  | .file =>
    have hcall := forbidDeepOrShallow_ne_stop hallow forbidden path .f
    rw [nftw]
    split <;> simp_all
  | .symlink =>
    have hcall := forbidDeepOrShallow_ne_stop hallow forbidden path .sl
    rw [nftw]
    split <;> simp_all
  | .dir entries =>
    have hcall := forbidDeepOrShallow_ne_stop hallow forbidden path .d
    have hentries := nftwDir_snd hallow forbidden entries path
    rw [nftw]
    split <;> simp_all

theorem nftwDir_snd (hallow : ∀ p shallow, 0 ≤ allowPath p shallow) (forbidden : List Path)
    (entries : DirEntries) (path : Path) :
    (nftwDir (forbidDeepOrShallow allowPath (forbidden.map text)) (text path) entries).2 =
      none := by
  match entries with
  | .nil => rfl
  | .cons name tree rest =>
    have htree := nftw_snd hallow forbidden tree (path ++ [name])
    have hrest := nftwDir_snd hallow forbidden rest path
    rw [nftwDir, child_text]
    split <;> simp_all

end

inductive DirEntries.Has (name : Name) (tree : FileTree) : DirEntries → Prop
  | head (rest : DirEntries) : Has name tree (.cons name tree rest)
  | tail (name' : Name) (tree' : FileTree) {rest : DirEntries} : Has name tree rest →
    Has name tree (.cons name' tree' rest)

/-- The tree has an entry at the path, and no symbolic link on the way to it or at it. -/
inductive FileTree.HasEntry : FileTree → Path → Prop
  | here {tree : FileTree} : tree ≠ .symlink → HasEntry tree []
  | beneath {entries : DirEntries} {name : Name} {tree : FileTree} {path : Path} :
      entries.Has name tree → HasEntry tree path → HasEntry (.dir entries) (name :: path)

variable {g : Grant} {tree : FileTree}

theorem mem_nftwDir (hallow : ∀ p shallow, 0 ≤ allowPath p shallow) {entries : DirEntries}
    {name : Name} (h : entries.Has name tree)
    (hg : g ∈ (nftw (forbidDeepOrShallow allowPath (forbidden.map text))
    (text (path ++ [name])) tree).1) :
    g ∈ (nftwDir (forbidDeepOrShallow allowPath (forbidden.map text)) (text path) entries).1 := by
  induction h with
  | head rest =>
    have hstop := nftw_snd hallow forbidden tree (path ++ [name])
    rw [nftwDir, child_text]
    split <;> simp_all
  | tail name' tree' _ ih =>
    have hstop := nftw_snd hallow forbidden tree' (path ++ [name'])
    rw [nftwDir, child_text]
    split <;> simp_all

theorem mem_nftw {callback : List Char → TypeFlag → List Grant × Action} {fpath : List Char}
    (hg : g ∈ (callback fpath tree.typeFlag).1) :
    g ∈ (nftw callback fpath tree).1 := by
  cases tree with
  | file | symlink | dir entries =>
    rw [nftw]
    simp only [FileTree.typeFlag] at hg
    split <;> simp_all

theorem nftw_complete (hallow : ∀ p shallow, 0 ≤ allowPath p shallow) {rest : Path}
    (hentry : tree.HasEntry rest) (hspared : Spared forbidden (path ++ rest)) :
    ∃ g ∈ (nftw (forbidDeepOrShallow allowPath (forbidden.map text)) (text path) tree).1,
      g.shallow = false ∧
      ∃ p, g.path = text p ∧ p <+: path ++ rest := by
  induction hentry generalizing path with
  | @here tree hlink =>
    rcases forbidDeepOrShallow_cases allowPath forbidden path tree.typeFlag with
      ⟨hskip, -⟩ | ⟨-, -, ⟨f, hf, hle⟩, -⟩ | ⟨-, -, -, action, hcall, -⟩
    · rcases hskip with hmem | hflag
      · exact absurd (List.prefix_append path []) (hspared path hmem).2
      · cases tree <;> simp_all [FileTree.typeFlag]
    · rw [List.append_nil] at hspared
      exact absurd hle (hspared f hf).1
    · refine ⟨⟨text path, false⟩, mem_nftw ?_, rfl, path, rfl, List.prefix_append _ _⟩
      simp [hcall, Int.not_lt.mpr (hallow (text path) false)]
  | @beneath entries name tree rest hhas _ ih =>
    rcases forbidDeepOrShallow_cases allowPath forbidden path .d with
      ⟨hskip, -⟩ | ⟨-, -, -, hcall⟩ | ⟨-, -, -, action, hcall, -⟩
    · have hmem : path ∈ forbidden := hskip.resolve_right (by simp)
      exact absurd (List.prefix_append path _) (hspared path hmem).2
    · rw [if_neg (Int.not_lt.mpr (hallow (text path) true))] at hcall
      rw [List.append_cons] at hspared ⊢
      obtain ⟨g, hg, hfull, p, htext, hle⟩ := ih hspared
      refine ⟨g, ?_, hfull, p, htext, hle⟩
      rw [nftw, hcall]
      exact List.mem_append_right _ (mem_nftwDir hallow hhas hg)
    · refine ⟨⟨text path, false⟩, mem_nftw ?_, rfl, path, rfl, List.prefix_append _ _⟩
      simp [FileTree.typeFlag, hcall, Int.not_lt.mpr (hallow (text path) false)]

end Walk

theorem forbidPaths_sound_complete (root : FileTree) (forbidden : List Path)
    (allowPath : List Char → Bool → Int) (hallow : ∀ p shallow, 0 ≤ allowPath p shallow) :
    (∀ g ∈ (forbidPaths allowPath (forbidden.map text) root).1, g.shallow = false →
      ∃ p, g.path = text p ∧ ∀ f ∈ forbidden, ∀ beneath, f <+: beneath → ¬ p <+: beneath) ∧
    ∀ entry, root.HasEntry entry → (∀ f ∈ forbidden, ¬ entry <+: f ∧ ¬ f <+: entry) →
      ∃ g ∈ (forbidPaths allowPath (forbidden.map text) root).1, g.shallow = false ∧ ∃ p,
        g.path = text p ∧ p <+: entry := by
  refine ⟨fun g hg hfull => ?_, fun entry hentry hspared => ?_⟩
  · obtain ⟨p, htext, hspared⟩ := nftw_sound root (reached_root forbidden) g hg hfull
    refine ⟨p, htext, fun f hf beneath hbeneath hle => ?_⟩
    rcases List.prefix_or_prefix_of_prefix hbeneath hle with h | h
    · exact (hspared f hf).2 h
    · exact (hspared f hf).1 h
  · have hroot : Spared forbidden ([] ++ entry) := hspared
    exact nftw_complete hallow hentry hroot

/-- A directory whose entries `/p/1` and `/p/12` differ only after the end of the first. -/
def siblings :
    FileTree :=
  .dir
    (.cons ⟨['p'], by decide⟩
    (.dir (.cons ⟨['1'], by decide⟩ .file (.cons ⟨['1', '2'], by decide⟩ .file .nil))) .nil)

theorem forbidPaths_sound_complete_siblings :
    ∃ g ∈ (forbidPaths (fun _ _ => 0) [['/', 'p', '/', '1']] siblings).1, g.shallow = false ∧
      ∃ p, g.path = text p ∧ p <+: [⟨['p'], by decide⟩, ⟨['1', '2'], by decide⟩] := by
  have hcomplete := (forbidPaths_sound_complete siblings [[⟨['p'], by decide⟩, ⟨['1'], by decide⟩]]
    (fun _ _ => 0) fun _ _ => Int.le_refl 0).2
  refine hcomplete [⟨['p'], by decide⟩, ⟨['1', '2'], by decide⟩] ?_ (by decide)
  exact .beneath (.head _) (.beneath (.tail _ _ (.head _)) (.here (by simp)))

end Ia2.ForbidPaths

import Ia2.Library.Lists
import Ia2.Tracer.ForbidPaths
import Mathlib.Data.Set.List

/-!
# The array of forbidden paths

`forbid_paths` is given an array of paths with a null pointer behind the last one. It makes an array
of their canonical paths with `strvmap`, and the callback of the walk goes through that array until
it finds a null pointer. But `strvmap` makes room for the paths alone: the only null pointers in its
array are those of paths that `realpath` cannot resolve. So the array has an end only if there is
such a path, and the paths behind the first one are not found.
-/

namespace Ia2.ForbidPaths

variable {α β : Type}

def strvlen : List (Option α) → Option Nat
  | [] => none
  | none :: _ => some 0
  | some _ :: rest => (strvlen rest).map (· + 1)

def strvmap (strv : List (Option α)) (fn : α → Option β) : Option (List (Option β)) := do
  let len ← strvlen strv
  return (strv.take len).map fun item => item.bind fn

def realPaths (realpath : List Char → Option (List Char)) (strv : List (Option (List Char))) :
  Option (List (List Char)) := do
  Terminated.read (← strvmap strv realpath)

def forbidPathsArray (realpath : List Char → Option (List Char))
    (allowPath : List Char → Bool → Int) (strv : List (Option (List Char))) (root : FileTree) :
    Option (List Grant × Int) := do
  return forbidPaths allowPath (← realPaths realpath strv) root

theorem strvlen_eq (strv : List (Option α)) :
    strvlen strv = (Terminated.read strv).map List.length := by
  induction strv with
  | nil => rfl
  | cons item strv ih =>
    cases item with
    | none => rfl
    | some x =>
      rw [strvlen, Terminated.read, ih, Option.map_map, Option.map_map]
      rfl

theorem strvmap_terminated (xs : List α) (rest : List (Option α)) (fn : α → Option β) :
    strvmap (xs.map some ++ none :: rest) fn = some (xs.map fn) := by
  simp [strvmap, strvlen_eq, Terminated.read_append, Function.comp_def]

/-- The array of canonical paths ends, and it has in it the canonical path of every path that
`realpath` resolves. -/
def AllForbidden (realpath : List Char → Option (List Char)) (paths : List (List Char))
    (strv : List (Option (List Char))) : Prop :=
  ∃ forbidden, realPaths realpath strv = some forbidden ∧
    ∀ path ∈ paths, ∀ canonical, realpath path = some canonical → canonical ∈ forbidden

variable {realpath : List Char → Option (List Char)} {strv : List (Option (List Char))}

theorem exists_realpath {forbidden : List (List Char)}
    (h : realPaths realpath strv = some forbidden) {canonical : List Char}
    (hmem : canonical ∈ forbidden) :
    ∃ path, realpath path = some canonical := by
  obtain ⟨elements, hmap, hread⟩ := Option.bind_eq_some_iff.mp h
  obtain ⟨len, -, helements⟩ := Option.bind_eq_some_iff.mp hmap
  obtain rfl := Option.some.inj helements
  obtain ⟨rest, hcells⟩ := Terminated.read_eq_some_iff.mp hread
  have hcell : some canonical ∈ (strv.take len).map fun item => item.bind realpath := by
    rw [hcells]
    exact List.mem_append_left _ (List.mem_map_of_mem hmem)
  obtain ⟨item, -, hitem⟩ := List.mem_map.mp hcell
  obtain ⟨path, -, hpath⟩ := Option.bind_eq_some_iff.mp hitem
  exact ⟨path, hpath⟩

theorem AllForbidden.spared {paths : List (List Char)} (h : AllForbidden realpath paths strv)
    (hcanonical : ∀ p c, realpath p = some c → ∃ f : Paths.Path, Paths.text f = c)
    (allowPath : List Char → Bool → Int) (root : FileTree) :
    ∃ grants error, forbidPathsArray realpath allowPath strv root = some (grants, error) ∧
      ∀ g ∈ grants, g.shallow = false → ∃ p, g.path = Paths.text p ∧
        ∀ path ∈ paths, ∀ f, realpath path = some (Paths.text f) → ¬ p <+: f ∧ ¬ f <+: p := by
  obtain ⟨forbidden, hforbidden, hall⟩ := h
  obtain ⟨fs, rfl⟩ : ∃ fs : List Paths.Path, fs.map Paths.text = forbidden := by
    refine (Set.range_list_map Paths.text).symm.subset fun c hc => ?_
    obtain ⟨path, hpath⟩ := exists_realpath hforbidden hc
    exact hcanonical path c hpath
  refine ⟨_, _, by rw [forbidPathsArray, hforbidden]; rfl, fun g hg hfull => ?_⟩
  obtain ⟨p, htext, hspared⟩ := nftw_sound root (reached_root fs) g hg hfull
  refine ⟨p, htext, fun path hpath f hf => hspared f ?_⟩
  obtain ⟨f', hf', htext'⟩ := List.mem_map.mp (hall path hpath _ hf)
  rwa [← text_inj htext']

/-- The array is as it should be exactly if some path does not resolve, and no path behind the first
such one has a canonical path that those before it do not have. -/
theorem allForbidden_iff (realpath : List Char → Option (List Char)) (paths : List (List Char))
    (rest : List (Option (List Char))) :
    AllForbidden realpath paths (paths.map some ++ none :: rest) ↔
      ∃ before path after, paths = before ++ path :: after ∧ (∀ p ∈ before, (realpath p).isSome) ∧
        realpath path = none ∧
        ∀ p ∈ after, ∀ canonical, realpath p = some canonical → ∃ p' ∈ before,
          realpath p' = some canonical := by
  have hread : ∀ forbidden, realPaths realpath (paths.map some ++ none :: rest) = some forbidden ↔
      ∃ before path after, paths = before ++ path :: after ∧
      before.map realpath = forbidden.map some ∧ realpath path = none := by
    intro forbidden
    simp only [realPaths, strvmap_terminated, Option.bind_eq_bind, Option.bind_some,
      Terminated.read_map_eq_some_iff]
  have hmem : ∀ {before forbidden : List (List Char)} {canonical : List Char},
    before.map realpath = forbidden.map some →
      (canonical ∈ forbidden ↔ ∃ p ∈ before, realpath p = some canonical) := by
    intro before forbidden canonical hmap
    rw [← List.mem_map_of_injective (fun _ _ => Option.some.inj), ← hmap, List.mem_map]
  constructor
  · rintro ⟨forbidden, hforbidden, hall⟩
    obtain ⟨before, path, after, rfl, hmap, hpath⟩ := (hread forbidden).mp hforbidden
    refine ⟨before, path, after, rfl, fun p hp => ?_, hpath, fun p hp canonical hcanonical => ?_⟩
    · obtain ⟨canonical, -, hp'⟩ := List.mem_map.mp (hmap ▸ List.mem_map_of_mem hp)
      rw [← hp']
      rfl
    · exact (hmem hmap).mp (hall p (by simp [hp]) canonical hcanonical)
  · rintro ⟨before, path, after, rfl, hsome, hpath, hafter⟩
    have hmap : before.map realpath = (before.filterMap realpath).map some := by
      rw [List.map_filterMap_some_eq_filter_map_isSome, List.filter_eq_self.mpr]
      exact List.forall_mem_map.mpr hsome
    refine ⟨before.filterMap realpath, (hread _).mpr ⟨before, path, after, rfl, hmap, hpath⟩,
      fun p hp canonical hcanonical => ?_⟩
    rw [hmem hmap]
    rcases List.mem_append.mp hp with hp | hp
    · exact ⟨p, hp, hcanonical⟩
    rcases List.mem_cons.mp hp with rfl | hp
    · rw [hpath] at hcanonical
      cases hcanonical
    · exact hafter p hp canonical hcanonical

/-- One path that resolves, and two of which the first does not. -/
theorem not_allForbidden :
    ¬ AllForbidden some [['/', 'p']] [some ['/', 'p'], none] ∧
      ¬ AllForbidden (fun path => if path = ['/', 'q'] then none else some path)
        [['/', 'q'], ['/', 'p']]
        [some ['/', 'q'], some ['/', 'p'], none] := by
  constructor
  · rintro ⟨forbidden, hforbidden, -⟩
    cases hforbidden
  · rintro ⟨forbidden, hforbidden, hall⟩
    cases hforbidden
    exact List.not_mem_nil (hall ['/', 'p'] (by simp) ['/', 'p'] rfl)

end Ia2.ForbidPaths

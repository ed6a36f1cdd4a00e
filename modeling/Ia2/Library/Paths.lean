import Mathlib.Data.List.Basic
import Mathlib.Tactic.Common

/-!
# Paths and their text

An absolute path is a list of names, and its text has a slash before each of them; the root's text
is a single slash. Names are not empty and have no slash, so a text is that of one path only, and a
path is at or beneath another one exactly if the other's names come first in it.
-/

namespace Paths

/-- The name of a directory entry. -/
abbrev Name := { name : List Char // name ≠ [] ∧ '/' ∉ name }

abbrev Path := List Name

/-- A slash and a name for each name of the path. -/
def body (path : Path) : List Char := path.flatMap fun name => '/' :: name.val

def text (path : Path) : List Char := if path = [] then ['/'] else body path

/-- The text of an entry of a directory. -/
def child (dir name : List Char) : List Char := if dir.getLast? = some '/' then dir ++ name
    else dir ++ '/' :: name

theorem body_cons (name : Name) (path : Path) :
    body (name :: path) = '/' :: (name.val ++ body path) := by
  simp [body]

theorem body_append (path path' : Path) : body (path ++ path') = body path ++ body path' := by
  simp [body]

/-- What follows a name in a text is nothing or a slash. -/
theorem head_body (path : Path) : body path = [] ∨ ∃ rest, body path = '/' :: rest := by
  cases path with
  | nil => exact .inl rfl
  | cons name path => exact .inr ⟨_, body_cons name path⟩

theorem text_ne_slash {path : Path} (h : path ≠ []) : text path ≠ ['/'] := by
  obtain ⟨name, path, rfl⟩ := List.exists_cons_of_ne_nil h
  rw [text, if_neg h, body_cons]
  simp [name.property.1]

theorem getLast?_body_ne (path : Path) : (body path).getLast? ≠ some '/' := by
  rcases List.eq_nil_or_concat path with rfl | ⟨path, name, rfl⟩
  · simp [body]
  · obtain ⟨name, hne, hslash⟩ := name
    have hbody : body (path.concat ⟨name, hne, hslash⟩) = body path ++ '/' :: name := by simp [body]
    rw [hbody, List.getLast?_append_cons, List.getLast?_cons_of_ne_nil hne,
      List.getLast?_eq_some_getLast hne]
    intro h
    exact hslash (Option.some.inj h ▸ List.getLast_mem hne)

theorem child_text (path : Path) (name : Name) :
    child (text path) name.val = text (path ++ [name]) := by
  have htext : text (path ++ [name]) = body path ++ '/' :: name.val := by
    rw [text, if_neg (by simp), body_append]
    simp [body]
  rw [htext, text, child]
  split
  case isTrue hroot => simp [hroot, body]
  case isFalse hdir => rw [if_neg (getLast?_body_ne path)]

end Paths

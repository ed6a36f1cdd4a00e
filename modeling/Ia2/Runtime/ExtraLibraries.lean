import Ia2.Library.Lists
import Ia2.Runtime.Tls

/-!
# Extra libraries

A compartment may list libraries that belong to it, by the starts of their names and with semicolons
between them. `in_extra_libraries` looks for an entry that the name of a loaded library starts with.
It also takes an entry that is longer than the name for a match if it starts with the name, and an
empty entry for a match of every name unless it is the last one.
-/

namespace Ia2.Runtime

def compareLoop : List Char → List Char → List Char × List Char
  | c :: extra, d :: name => if c ≠ d then (c :: extra, d :: name) else compareLoop extra name
  | extra, name => (extra, name)

theorem compareLoop_length (extra name : List Char) :
    (compareLoop extra name).1.length ≤ extra.length := by
  induction extra generalizing name with
  | nil => cases name <;> simp [compareLoop]
  | cons c extra ih =>
    cases name with
    | nil => simp [compareLoop]
    | cons d name =>
      rw [compareLoop]
      split
      · exact Nat.le_refl _
      · exact Nat.le_succ_of_le (ih name)

def entriesLoop (libraryName : List Char) (extra : List Char) : Bool :=
  if extra = [] then false
  else
    let rest := compareLoop extra libraryName
    -- the name ends here, or the entry does
    if rest.2 = [] then true
    else if rest.1 = [] ∨ rest.1.head? = some ';' then true
    else entriesLoop libraryName ((rest.1.dropWhile (· ≠ ';')).drop 1)
termination_by extra.length
decreasing_by
  have hrest := compareLoop_length extra libraryName
  have hskip := (List.dropWhile_suffix (· ≠ ';') (l := (compareLoop extra libraryName).1)).length_le
  have hpos : 0 < extra.length := List.length_pos_iff.mpr ‹_›
  rw [List.length_drop]
  omega

def inExtraLibraries (info : DlPhdrInfo) (extraLibraries : Option String) : Bool :=
  match extraLibraries with
  | none => false
  | some extra =>
    let libraryName := (basename info.dlpiName).toList
    if libraryName.length = 0 then false else entriesLoop libraryName extra.toList

/-! ### One entry -/

variable {entry name tail : List Char}

theorem compareLoop_entry (hentry : ';' ∉ entry) (hname : ';' ∉ name)
    (htail : tail = [] ∨ tail.head? = some ';') :
    let rest := compareLoop (entry ++ tail) name
    (rest.2 = [] ∨ rest.1 = [] ∨ rest.1.head? = some ';') ∧ (entry <+: name ∨ name <+: entry) ∨
      (¬ rest.2 = [] ∧ ¬ (rest.1 = [] ∨ rest.1.head? = some ';')) ∧
      ¬ (entry <+: name ∨ name <+: entry) ∧
        ∃ left, ';' ∉ left ∧ rest.1 = left ++ tail := by
  induction entry generalizing name with
  | nil =>
    refine .inl ⟨?_, .inl List.nil_prefix⟩
    rw [List.nil_append]
    rcases tail with _ | ⟨c, tail⟩
    · cases name <;> simp [compareLoop]
    · obtain rfl : c = ';' := by simpa using htail
      cases name with
      | nil => simp [compareLoop]
      | cons d name =>
        have hd : ';' ≠ d := fun h => hname (h ▸ List.mem_cons_self)
        simp [compareLoop, hd]
  | cons c entry ih =>
    cases name with
    | nil => exact .inl ⟨by simp [compareLoop], .inr List.nil_prefix⟩
    | cons d name =>
      by_cases hcd : c = d
      · subst hcd
        rw [List.cons_append, compareLoop, if_neg (not_not.mpr rfl), List.cons_prefix_cons,
          List.cons_prefix_cons]
        simpa using ih (List.not_mem_of_not_mem_cons hentry) (List.not_mem_of_not_mem_cons hname)
      · refine .inr ⟨?_, ?_, c :: entry, hentry, ?_⟩
        · have hc : c ≠ ';' := fun h => hentry (h ▸ List.mem_cons_self)
          simp [compareLoop, hcd, hc]
        · rw [List.cons_prefix_cons, List.cons_prefix_cons]
          exact fun h => h.elim (fun h => hcd h.1) fun h => hcd h.1.symm
        · simp [compareLoop, hcd]

theorem entriesLoop_entry (hentry : ';' ∉ entry) (hname : ';' ∉ name)
    (htail : tail = [] ∨ tail.head? = some ';') (hne : entry ++ tail ≠ []) :
    entriesLoop name (entry ++ tail) =
      (decide (entry <+: name ∨ name <+: entry) || entriesLoop name (tail.drop 1)) := by
  rw [entriesLoop, if_neg hne]
  rcases compareLoop_entry hentry hname htail
    with ⟨hstop, hmatch⟩ | ⟨⟨hmore, hgoes⟩, hmatch, left, hleft, hrest⟩
  · rw [decide_eq_true hmatch, Bool.true_or]
    rcases hstop with hend | hstop
    · exact if_pos hend
    · dsimp only
      rw [if_pos hstop, ite_self]
  · rw [decide_eq_false hmatch, Bool.false_or]
    dsimp only
    rw [if_neg hmore, if_neg hgoes, hrest, Separated.dropWhile_entry hleft htail]

/-! ### The whole list -/

/-- The entries of a list of libraries. -/
def entries (extra : List Char) : List (List Char) := extra.splitOn ';'

theorem entries_last (h : ';' ∉ entry) : entries entry = [entry] :=
  List.splitOn_eq_singleton h

theorem entries_next (h : ';' ∉ entry) (rest : List Char) :
    entries (entry ++ ';' :: rest) = entry :: entries rest :=
  List.splitOn_append_cons_self_of_not_mem h rest

theorem dropLast_entries_next (h : ';' ∉ entry) (rest : List Char) :
    (entries (entry ++ ';' :: rest)).dropLast = entry :: (entries rest).dropLast := by
  have hrest : entries rest ≠ [] := List.splitOn_ne_nil _ _
  rw [entries_next h, List.dropLast_cons_of_ne_nil hrest]

theorem entriesLoop_iff {name : List Char} (hname : ';' ∉ name) (extra : List Char) :
    entriesLoop name extra = true ↔
      (∃ entry ∈ entries extra, entry ≠ [] ∧ (entry <+: name ∨ name <+: entry)) ∨
        [] ∈ (entries extra).dropLast := by
  have hnone : entriesLoop name [] = false := by rw [entriesLoop, if_pos rfl]
  induction extra using Separated.entry_induction ';' with
  | last entry hentry =>
    rw [entries_last hentry]
    by_cases hnil : entry = []
    · simp [hnil, hnone]
    · have hround := entriesLoop_entry hentry hname (.inl (rfl : [] = [])) (by simpa using hnil)
      rw [List.append_nil] at hround
      simp [hround, hnone, hnil]
  | next entry rest hentry ih =>
    have hround := entriesLoop_entry hentry hname
      (.inr (rfl : (';' :: rest).head? = some ';')) (by simp)
    replace ih : entriesLoop name rest = true ↔ _ := ih
    rw [hround, dropLast_entries_next hentry, entries_next hentry, Bool.or_eq_true,
      decide_eq_true_iff, List.drop_one, List.tail_cons, ih]
    by_cases hnil : entry = []
    · simp [hnil]
    · simp [hnil, Ne.symm hnil, or_assoc]

/-- Some entry of the list that is not empty is the start of the name. -/
def Listed (extra name : List Char) : Prop := ∃ entry ∈ entries extra, entry ≠ [] ∧ entry <+: name

/-- The answer is right exactly if such an entry exists, or if neither an entry starts with the name
nor one before the last is empty. -/
theorem inExtraLibraries_right_iff (info : DlPhdrInfo) (extra : String)
    (hname : (basename info.dlpiName).toList ≠ []) (hsep : ';' ∉ (basename info.dlpiName).toList) :
    (inExtraLibraries info (some extra) = true ↔
      Listed extra.toList (basename info.dlpiName).toList) ↔
      Listed extra.toList (basename info.dlpiName).toList ∨
        (∀ entry ∈ entries extra.toList, ¬ (basename info.dlpiName).toList <+: entry) ∧
          [] ∉ (entries extra.toList).dropLast := by
  generalize hlib : (basename info.dlpiName).toList = name at hname hsep ⊢
  have hloop : inExtraLibraries info (some extra) = entriesLoop name extra.toList := by
    simp [inExtraLibraries, hlib, hname]
  have hlonger : ∀ entry : List Char, name <+: entry → entry ≠ [] := by
    rintro entry hle rfl
    exact hname (List.prefix_nil.mp hle)
  rw [hloop, entriesLoop_iff hsep, Listed]
  constructor
  · intro h
    by_cases hlisted : ∃ entry ∈ entries extra.toList, entry ≠ [] ∧ entry <+: name
    · exact .inl hlisted
    · refine .inr ⟨fun entry hentry hle =>
        hlisted (h.mp (.inl ⟨entry, hentry, hlonger entry hle, .inr hle⟩)),
        fun hnil => hlisted (h.mp (.inr hnil))⟩
  · rintro (⟨entry, hentry, hne, hle⟩ | ⟨hshorter, hnil⟩)
    · exact ⟨fun _ => ⟨entry, hentry, hne, hle⟩, fun _ => .inl ⟨entry, hentry, hne, .inl hle⟩⟩
    · constructor
      · rintro (⟨entry, hentry, hne, hle | hle⟩ | h)
        · exact ⟨entry, hentry, hne, hle⟩
        · exact absurd hle (hshorter entry hentry)
        · exact absurd h hnil
      · rintro ⟨entry, hentry, hne, hle⟩
        exact .inl ⟨entry, hentry, hne, .inl hle⟩

/-- A loaded library, of which only the name matters here. -/
def libraryNamed (name : String) : DlPhdrInfo := ⟨0, name, [], 0⟩

theorem inExtraLibraries_right_iff_version :
    (inExtraLibraries (libraryNamed "/lib/libb.so.6") (some "liba.so;libb.so") = true ↔
      Listed "liba.so;libb.so".toList (basename "/lib/libb.so.6").toList) :=
  (inExtraLibraries_right_iff (libraryNamed "/lib/libb.so.6") "liba.so;libb.so" (by decide)
    (by decide)).mpr
    (.inl ⟨"libb.so".toList, by decide, by decide, by decide⟩)

/-- An entry that is longer than the name, and an empty entry. -/
theorem inExtraLibraries_unlisted :
    (inExtraLibraries (libraryNamed "libc.so") (some "libc.so.6") = true ∧
      ¬ Listed "libc.so.6".toList (basename "libc.so").toList) ∧
      inExtraLibraries (libraryNamed "libc.so") (some "liba.so;;libb.so") = true ∧
        ¬ Listed "liba.so;;libb.so".toList (basename "libc.so").toList := by
  have hloop : ∀ extra, inExtraLibraries (libraryNamed "libc.so") (some extra) =
      entriesLoop "libc.so".toList extra.toList :=
    fun extra => rfl
  simp only [hloop, @entriesLoop_iff "libc.so".toList (by decide), Listed]
  decide

end Ia2.Runtime

import Ia2.Library.Scanf
import Ia2.Tracer.Events
import Ia2.Tracer.Pages

/-!
# The initial memory map

The tracer starts from what the kernel prints in `/proc/<pid>/maps`, one mapping a line.
`load_initial_memory_map` reads each line with `sscanf` and adds a region for it. A line that it
cannot read makes it give up: the map is destroyed and the lines behind it are ignored.
-/

namespace Ia2.Tracer

open IntervalTree Scanf

def PROT_READ : UInt32 := 1
def PROT_EXEC : UInt32 := 4

/-! ### Reading the file -/

/-- The lines that `getline` returns, without the newlines. -/
def lines : List Char → List (List Char)
  | [] => []
  | c :: rest =>
    if c = '\n' then [] :: lines rest
    else match lines rest with
      | [] => [[c]]
      | line :: more => (c :: line) :: more

def mapsFormat : List Directive :=
  [.number 16 64, .literal '-', .number 16 64, .space, .chars 4, .space, .number 16 64, .space,
    .number 16 32, .literal ':', .number 16 32,
    .space, .number 10 64, .space, .position]

structure MapsEntry where
  startAddr : Nat
  endAddr : Nat
  perms : List Char
  offset : Nat
  path : List Char
deriving DecidableEq, Repr

def numberAt (values : List Value) (i : Nat) : Nat :=
  match values[i]? with
  | some (.number n) => n
  | _ => 0

def charsAt (values : List Value) (i : Nat) : List Char :=
  match values[i]? with
  | some (.chars text) => text
  | _ => []

def positionAt (values : List Value) (i : Nat) : List Char :=
  match values[i]? with
  | some (.position rest) => rest
  | _ => []

def expectedVarsMatched : Nat := 7

/-- The line has the seven fields of the format. -/
def Matches (line : List Char) : Prop := matched (sscanf mapsFormat line) = expectedVarsMatched

instance decidableMatches (line : List Char) : Decidable (Matches line) :=
  inferInstanceAs (Decidable (_ = _))

def parseLine (line : List Char) : Option MapsEntry :=
  if Matches line then
    let values := sscanf mapsFormat line
    some ⟨numberAt values 0, numberAt values 1, charsAt values 2, numberAt values 3,
      positionAt values 7⟩
  else none

section Load

variable {T : Type} [IntervalTree T Nat State]

def memoryMapForeach {σ : Type} (eachCb : MapsEntry → σ → Outcome σ) (errorCb : List Char → σ → σ)
    (file : List (List Char)) (context : σ) :
    Outcome σ :=
  file.foldlM (fun context line =>
    match parseLine line with
    | some entry => eachCb entry context
    | none => return errorCb line context) context

def failLoadingMemoryMap (_line : List Char) (_map : Option (MemoryMap T)) :
    Option (MemoryMap T) := none

def permsProt (perms : List Char) : UInt32 :=
  (if perms[0]? = some 'r' then PROT_READ else 0) |||
    (if perms[1]? = some 'w' then PROT_WRITE else 0) |||
    (if perms[2]? = some 'x' then PROT_EXEC else 0)

def addMemoryMapEntry (entry : MapsEntry) : Option (MemoryMap T) → Outcome (Option (MemoryMap T))
  | none => return none
  | some map => do
    -- whether the region was added is not looked at
    let (map, _) ← map.addFreshRegion ⟨entry.startAddr, wrappingSub entry.endAddr entry.startAddr⟩ 0
      (permsProt entry.perms)
    return some map

/-- The callbacks of `load_initial_memory_map` over lines, from a map or from none. -/
def loadLines (file : List (List Char)) (map : Option (MemoryMap T)) :
    Outcome (Option (MemoryMap T)) :=
  memoryMapForeach addMemoryMapEntry failLoadingMemoryMap file map

/-- `load_initial_memory_map`, for the text of the file. -/
def loadInitialMemoryMap (file : List Char) : Outcome (Option (MemoryMap T)) :=
  loadLines (lines file) (some MemoryMap.new)

end Load

/-! ### Printing mappings -/

/-- A mapping of a process, as the kernel has it. -/
structure Vma where
  start : Nat
  stop : Nat
  read : Bool
  write : Bool
  exec : Bool
  shared : Bool
  offset : Nat
  devMajor : Nat
  devMinor : Nat
  inode : Nat
  path : Option (List Char)

namespace Vma

variable (m : Vma)

def perms : List Char :=
  [if m.read then 'r' else '-', if m.write then 'w' else '-', if m.exec then 'x' else '-',
    if m.shared then 's' else 'p']

def header : List Char :=
  padded 16 8 m.start ++ '-' :: padded 16 8 m.stop ++ ' ' :: m.perms ++
    ' ' :: padded 16 8 m.offset ++ ' ' :: padded 16 2 m.devMajor ++
    ':' :: padded 16 2 m.devMinor ++ ' ' :: padded 10 0 m.inode ++ [' ']

def printLine : List Char :=
  m.header ++
    match m.path with
    | none => []
    | some path => List.replicate (72 - m.header.length) ' ' ++ ' ' :: path

def prot : UInt32 :=
  (if m.read then PROT_READ else 0) ||| (if m.write then PROT_WRITE else 0) |||
    (if m.exec then PROT_EXEC else 0)

/-- The region that stands for a mapping: it belongs to the initial compartment and has not been
protected. -/
def region : LabelledInterval Nat State := ⟨m.start, m.stop, ⟨0, false, false, m.prot⟩⟩

end Vma

/-- The text of `/proc/<pid>/maps`. -/
def printMaps (mappings : List Vma) : List Char := mappings.flatMap fun m => m.printLine ++ ['\n']

/-- What the kernel guarantees of the mappings of a process. -/
structure VmasOk (mappings : List Vma) : Prop where
  nonempty : ∀ m ∈ mappings, m.start < m.stop
  aligned : ∀ m ∈ mappings, m.start % 4096 = 0 ∧ m.stop % 4096 = 0
  bounded : ∀ m ∈ mappings, m.stop ≤ 2 ^ 64 - 4096
  ascending : mappings.Pairwise fun m n => m.stop ≤ n.start
  oneLine : ∀ m ∈ mappings, ∀ path ∈ m.path, '\n' ∉ path

/-! ### Reading a printed line -/

theorem dropWhile_perms (m : Vma) (rest : List Char) :
    (m.perms ++ rest).dropWhile isSpace = m.perms ++ rest := by
  refine List.dropWhile_cons_of_neg ?_
  cases m.read <;> decide

theorem scan_header (m : Vma) (rest : List Char) :
    scan mapsFormat (m.header ++ rest) =
      [.number (convert 64 false m.start), .number (convert 64 false m.stop), .chars m.perms,
        .number (convert 64 false m.offset),
        .number (convert 32 false m.devMajor), .number (convert 32 false m.devMinor),
          .number (convert 64 false m.inode),
        .position (rest.dropWhile isSpace)] := by
  have hnumber := @dropWhile_padded 16 (by decide) (by decide)
  have hperms : ∀ rest format, scan (.chars 4 :: format) (m.perms ++ rest) =
      .chars m.perms :: scan format rest :=
    @scan_chars m.perms (List.cons_ne_nil _ _)
  simp only [Vma.header, List.append_assoc, List.cons_append, List.nil_append, mapsFormat]
  rw [scan_padded (by decide) (by decide) _ _ (by decide) (by decide), scan_literal,
    scan_padded (by decide) (by decide) _ _ (by decide) (by decide),
    scan_space (dropWhile_perms _ _), hperms, scan_space (hnumber _ _ _),
    scan_padded (by decide) (by decide) _ _ (by decide) (by decide), scan_space (hnumber _ _ _),
    scan_padded (by decide) (by decide) _ _ (by decide) (by decide), scan_literal,
    scan_padded (by decide) (by decide) _ _ (by decide) (by decide),
    scan_space (dropWhile_padded (by decide) (by decide) _ _ _),
    scan_padded (by decide) (by decide) _ _ (by decide) (by decide)]
  rfl

variable {c : Char} {m : Vma}

theorem ne_of_mem_padded {base : Nat} (hbase : 1 < base) (hle : base ≤ 16) {width n : Nat}
    {d : Char} (hd : digitValue d = 16) (hc : c ∈ padded base width n) : c ≠ d := by
  rintro rfl
  have := isDigit_padded hbase hle hc
  rw [isDigit, hd, decide_eq_true_iff] at this
  omega

theorem not_mem_header (m : Vma) (hc : c ∈ m.header) : c ≠ '\x00' ∧ c ≠ '\n' := by
  have hhex : ∀ width n, c ∈ padded 16 width n → c ≠ '\x00' ∧ c ≠ '\n' := fun _ _ h =>
    ⟨ne_of_mem_padded (by decide) (by decide) rfl h, ne_of_mem_padded (by decide) (by decide) rfl h⟩
  have hdecimal : ∀ width n, c ∈ padded 10 width n → c ≠ '\x00' ∧ c ≠ '\n' := fun _ _ h =>
    ⟨ne_of_mem_padded (by decide) (by decide) rfl h, ne_of_mem_padded (by decide) (by decide) rfl h⟩
  have hperms : c ∈ m.perms → c ≠ '\x00' ∧ c ≠ '\n' := by
    intro h
    have hset : c = 'r' ∨ c = 'w' ∨ c = 'x' ∨ c = '-' ∨ c = 's' ∨ c = 'p' := by
      simp only [Vma.perms, List.mem_cons, List.not_mem_nil, or_false] at h
      grind
    rcases hset with rfl | rfl | rfl | rfl | rfl | rfl <;> decide
  simp only [Vma.header, List.mem_append, List.mem_cons, List.not_mem_nil, or_false] at hc
  grind

theorem sscanf_printLine (m : Vma) : ∃ path, sscanf mapsFormat m.printLine =
    [.number (convert 64 false m.start), .number (convert 64 false m.stop), .chars m.perms,
      .number (convert 64 false m.offset),
      .number (convert 32 false m.devMajor), .number (convert 32 false m.devMinor),
        .number (convert 64 false m.inode), .position path] := by
  rw [sscanf, Vma.printLine, List.takeWhile_append_of_pos fun c hc =>
    decide_eq_true (not_mem_header m hc).1, scan_header]
  exact ⟨_, rfl⟩

theorem parseLine_printLine (hstart : m.start < 2 ^ 64) (hstop : m.stop < 2 ^ 64) :
    ∃ offset path, parseLine m.printLine = some ⟨m.start, m.stop, m.perms, offset, path⟩ := by
  obtain ⟨path, hscan⟩ := sscanf_printLine m
  rw [convert_eq (Nat.le_refl 64) hstart, convert_eq (Nat.le_refl 64) hstop] at hscan
  have hmatches : Matches m.printLine := by rw [Matches, hscan]; rfl
  rw [parseLine, if_pos hmatches, hscan]
  exact ⟨_, _, rfl⟩

theorem permsProt_perms (m : Vma) : permsProt m.perms = m.prot := by
  cases hread : m.read <;> cases hwrite : m.write <;> cases hexec : m.exec <;>
    simp [permsProt, Vma.perms, Vma.prot, hread, hwrite, hexec]

/-! ### Lines -/

theorem lines_cons {line : List Char} (hline : '\n' ∉ line) (rest : List Char) :
    lines (line ++ '\n' :: rest) = line :: lines rest := by
  induction line with
  | nil => rfl
  | cons c line ih =>
    have hc : c ≠ '\n' := fun h => hline (h ▸ List.mem_cons_self)
    rw [List.cons_append, lines, if_neg hc, ih (List.not_mem_of_not_mem_cons hline)]

theorem not_mem_printLine (hpath : ∀ path ∈ m.path, '\n' ∉ path) :
    '\n' ∉ m.printLine := by
  have hheader : '\n' ∉ m.header := fun h => (not_mem_header m h).2 rfl
  rw [Vma.printLine, List.mem_append, not_or]
  refine ⟨hheader, ?_⟩
  cases hcase : m.path with
  | none => simp
  | some path => simp [hpath path hcase]

theorem lines_printMaps {mappings : List Vma}
    (hpaths : ∀ m ∈ mappings, ∀ path ∈ m.path, '\n' ∉ path) :
    lines (printMaps mappings) = mappings.map Vma.printLine := by
  induction mappings with
  | nil => rfl
  | cons m mappings ih =>
    rw [List.forall_mem_cons] at hpaths
    have hfirst : printMaps (m :: mappings) = m.printLine ++ '\n' :: printMaps mappings := by
      simp [printMaps]
    rw [hfirst, lines_cons (not_mem_printLine hpaths.1), ih hpaths.2, List.map_cons]

/-! ### Adding regions -/

section Add

open LabelledInterval

variable {T : Type} [IntervalTree T Nat State]
variable {map : MemoryMap T} {done rest : List Vma}

theorem addRegion_behind (hapart : Apart (entries map.regions)) {r : Range} (hlen : 0 < r.len)
    (hfits : r.Fits) (hstart : r.start % 4096 = 0) (hstop : (r.start + r.len) % 4096 = 0)
    (hbehind : ∀ e ∈ entries map.regions, e.hi ≤ r.start) (state : State) :
    map.addRegion r state = .ok
      ({ map with regions := insert map.regions r.start (r.start + r.len) state }, true) := by
  have hlo : r.roundTo4k.start = r.start := by rw [Range.roundTo4k_start]; omega
  have hhi : r.roundTo4k.endAddr = r.start + r.len := by rw [Range.roundTo4k_endAddr hfits]; omega
  have hnone : meeting map.regions r.start (r.start + r.len) = [] := by
    rw [List.eq_nil_iff_forall_not_mem]
    intro e he
    obtain ⟨hmem, hmeets⟩ := mem_meeting.mp he
    exact absurd hmeets.2 (Nat.not_lt.mpr (hbehind e hmem))
  have hoverlap : map.overlapping r.roundTo4k = .ok [] := by
    rw [MemoryMap.overlapping, hlo, hhi, range_eq_meeting hapart (by omega), hnone]
    rfl
  unfold MemoryMap.addRegion
  simp only [Nat.ne_of_gt hlen, if_false, hoverlap, hlo, hhi, bind, Except.bind, pure, Except.pure]
  simp

theorem VmasOk.apart (h : VmasOk (done ++ rest)) :
    Apart (done.map Vma.region) := by
  constructor
  · intro e he
    obtain ⟨m, hm, rfl⟩ := List.mem_map.mp he
    exact h.nonempty m (List.mem_append_left _ hm)
  · rw [List.pairwise_map]
    exact (List.pairwise_append.mp h.ascending).1

theorem addMemoryMapEntry_next (h : VmasOk (done ++ m :: rest))
    (hmap : entries map.regions = done.map Vma.region) (offset : Nat) (path : List Char) :
    ∃ map', addMemoryMapEntry ⟨m.start, m.stop, m.perms, offset, path⟩ (some map) =
      .ok (some map') ∧
      entries map'.regions = (done ++ [m]).map Vma.region := by
  have hm : m ∈ done ++ m :: rest := List.mem_append_right _ List.mem_cons_self
  have hlt := h.nonempty m hm
  have hbound := h.bounded m hm
  obtain ⟨hstart, hstop⟩ := h.aligned m hm
  have hlen : wrappingSub m.stop m.start = m.stop - m.start := by
    unfold wrappingSub
    omega
  have hsum : m.start + (m.stop - m.start) = m.stop := Nat.add_sub_cancel' (Nat.le_of_lt hlt)
  have hbefore : ∀ e ∈ entries map.regions, e.hi ≤ m.start := by
    intro e he
    obtain ⟨d, hd, rfl⟩ := List.mem_map.mp (hmap ▸ he)
    exact (List.pairwise_append.mp h.ascending).2.2 d hd m List.mem_cons_self
  have hapart : Apart (entries map.regions) := hmap ▸ h.apart
  refine ⟨{ map with regions := insert map.regions m.start m.stop ⟨0, false, false, m.prot⟩ }, ?_,
    ?_⟩
  · have hadd := addRegion_behind hapart (r := ⟨m.start, m.stop - m.start⟩) (Nat.sub_pos_of_lt hlt)
      (by unfold Range.Fits; dsimp only; omega)
      hstart (by dsimp only; rw [hsum]; exact hstop) hbefore ⟨0, false, false, m.prot⟩
    dsimp only at hadd
    rw [hsum] at hadd
    rw [addMemoryMapEntry, permsProt_perms, hlen, MemoryMap.addFreshRegion, hadd]
    rfl
  · have hlast : ∀ e ∈ entries map.regions, e.lo < m.start :=
      fun e he => Nat.lt_of_lt_of_le (hapart.nonempty e he) (hbefore e he)
    rw [entries_insert_last _ _ hlast, hmap, List.map_append]
    rfl

theorem loadLines_printed (h : VmasOk (done ++ rest))
    (hmap : entries map.regions = done.map Vma.region) :
    ∃ map', loadLines (rest.map Vma.printLine) (some map) = .ok (some map') ∧
      entries map'.regions = (done ++ rest).map Vma.region := by
  induction rest generalizing done map with
  | nil => exact ⟨map, rfl, by rw [List.append_nil]; exact hmap⟩
  | cons m rest ih =>
    have hm : m ∈ done ++ m :: rest := List.mem_append_right _ List.mem_cons_self
    have hlt := h.nonempty m hm
    have hbound := h.bounded m hm
    obtain ⟨offset, path, hparse⟩ := parseLine_printLine (m := m) (by omega) (by omega)
    obtain ⟨map₁, hadd, hmap₁⟩ := addMemoryMapEntry_next h hmap offset path
    have hsplit : done ++ m :: rest = (done ++ [m]) ++ rest := by
      rw [List.append_assoc, List.singleton_append]
    obtain ⟨map', hload, hmap'⟩ := ih (hsplit ▸ h) hmap₁
    refine ⟨map', ?_, hsplit ▸ hmap'⟩
    rw [loadLines, memoryMapForeach, List.map_cons, List.foldlM_cons, hparse]
    dsimp only
    rw [hadd]
    exact hload

theorem loadLines_none (file : List (List Char)) :
    loadLines file (none : Option (MemoryMap T)) = .ok none := by
  induction file with
  | nil => rfl
  | cons line file ih =>
    rw [loadLines, memoryMapForeach, List.foldlM_cons]
    cases parseLine line <;> exact ih

theorem loadLines_unmatched {before after : List (List Char)} {line : List Char}
    {map context : Option (MemoryMap T)} (hbefore : loadLines before map = .ok context)
    (hline : ¬ Matches line) : loadLines (before ++ line :: after) map = .ok none := by
  rw [loadLines, memoryMapForeach] at hbefore ⊢
  rw [List.foldlM_append, hbefore]
  have hparse : parseLine line = none := if_neg hline
  simp only [bind, Except.bind, List.foldlM_cons, hparse]
  exact loadLines_none after

end Add

/-- Loading the printed mappings of a process gives their regions, and no others. A line without the
seven fields gives no map, whatever comes after it; the lines before it are ones that do not end the
tracer. -/
theorem loadInitialMemoryMap_inverts {T : Type} [IntervalTree T Nat State] :
    (∀ mappings, VmasOk mappings → ∃ map : MemoryMap T,
      loadInitialMemoryMap (printMaps mappings) = .ok (some map) ∧
      entries map.regions = mappings.map Vma.region) ∧
    ∀ file before line after (context : Option (MemoryMap T)),
      lines file = before ++ line :: after →
      loadLines before (some (MemoryMap.new : MemoryMap T)) = .ok context → ¬ Matches line →
        loadInitialMemoryMap file = .ok (none : Option (MemoryMap T)) := by
  constructor
  · intro mappings h
    have hnew : entries (MemoryMap.new : MemoryMap T).regions = ([] : List Vma).map Vma.region :=
      entries_empty
    have hall : VmasOk ([] ++ mappings) := h
    obtain ⟨map, hload, hmap⟩ := loadLines_printed hall hnew
    exact ⟨map, by rw [loadInitialMemoryMap, lines_printMaps h.oneLine]; exact hload, hmap⟩
  · intro file before line after context hlines hbefore hline
    rw [loadInitialMemoryMap, hlines]
    exact loadLines_unmatched hbefore hline

/-- Two mappings without a gap between them, one with a path. -/
def twoMappings : List Vma :=
  [⟨0x400000, 0x401000, true, false, true, false, 0, 0xfd, 1, 131, some "/bin/true".toList⟩,
    ⟨0x401000, 0x403000, true, true, false, true, 0, 0, 0, 0, none⟩]

example : printMaps (twoMappings.drop 1) = "00401000-00403000 rw-s 00000000 00:00 0 \n".toList := by
  decide +kernel

theorem loadInitialMemoryMap_inverts_two :
    ∃ map : MemoryMap (SortedIntervals Nat State),
      loadInitialMemoryMap (printMaps twoMappings) = .ok (some map) ∧
      entries map.regions = [⟨0x400000, 0x401000, ⟨0, false, false, 5⟩⟩,
        ⟨0x401000, 0x403000, ⟨0, false, false, 3⟩⟩] :=
  loadInitialMemoryMap_inverts.1 twoMappings
    ⟨by simp [twoMappings], by simp [twoMappings], by simp [twoMappings], by
      simp [twoMappings], by decide⟩

end Ia2.Tracer

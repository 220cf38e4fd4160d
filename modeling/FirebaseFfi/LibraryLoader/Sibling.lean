import FirebaseFfi.Dart.CodeUnits
import Mathlib.Data.Option.Basic

namespace LibraryLoader
open Dart

def space : UInt16 := 32

def slash : UInt16 := 47

section Model

/-- The file that a line of `/proc/self/maps` names, by its directory and its base. -/
def mappedFile (line : CodeUnits) : Option (CodeUnits × CodeUnits) := do
  let i ← lastIndexOf line space
  let path := line.drop (i + 1)
  guard (startsWith path [slash])
  let j ← lastIndexOf path slash
  -- A file in the root has no directory to look in.
  guard (0 < j)
  return (path.take j, path.drop (j + 1))

def looksBundled (dir base : CodeUnits) : Bool :=
  endsWith dir (units "/lib") || base == units "libapp.so" || startsWith base (units "libflutter")

structure Scan where
  seen : List CodeUnits := []
  preferred : List CodeUnits := []
  rest : List CodeUnits := []

def scanLine (s : Scan) (line : CodeUnits) : Scan :=
  match mappedFile line with
  | none => s
  | some (dir, base) =>
    -- Of a directory's files only the first is looked at.
    if dir ∈ s.seen then s
    else if looksBundled dir base then
      { s with seen := dir :: s.seen, preferred := s.preferred ++ [dir] }
    else { s with seen := dir :: s.seen, rest := s.rest ++ [dir] }

def scan (lines : List CodeUnits) : Scan := lines.foldl scanLine {}

def Scan.searchOrder (s : Scan) : List CodeUnits := s.preferred ++ s.rest

def inDirectory (dir name : CodeUnits) : CodeUnits := dir ++ slash :: name

/-- `_siblingOfMappedLibrary`. `maps` is none when it cannot be read. -/
def siblingOfMappedLibrary (isLinux : Bool) (maps : Option (List CodeUnits))
    (existsSync : CodeUnits → Bool) (name : CodeUnits) : Option CodeUnits := do
  guard isLinux
  let lines ← maps
  ((scan lines).searchOrder.map (inDirectory · name)).find? existsSync

end Model

section Lines

/-- A path below a directory other than the root. -/
def FileIn (path dir base : CodeUnits) : Prop :=
  path = dir ++ slash :: base ∧ slash ∉ base ∧ [slash] <+: dir

/-- The text after the last space. -/
def LastField (line path : CodeUnits) : Prop :=
  ∃ before, line = before ++ space :: path ∧ space ∉ path

theorem LastField.unique {line path path' : CodeUnits} (h : LastField line path)
    (h' : LastField line path') : path = path' := by
  obtain ⟨before, rfl, hspace⟩ := h
  obtain ⟨before', heq, hspace'⟩ := h'
  have hlen : before.length = before'.length := by
    have hlast := @lastIndexOf_append before path space hspace
    rw [heq, lastIndexOf_append hspace'] at hlast
    exact (Option.some.inj hlast).symm
  obtain ⟨-, htail⟩ := List.append_inj heq hlen
  exact (List.cons.inj htail).2

theorem mappedFile_iff {line dir base : CodeUnits} :
    mappedFile line = some (dir, base) ↔ ∃ path, LastField line path ∧ FileIn path dir base := by
  constructor
  · intro h
    simp only [mappedFile, Option.bind_eq_bind, Option.bind_eq_some_iff, Option.pure_def,
      Option.some.injEq, Prod.mk.injEq, Option.guard_eq_some', exists_const] at h
    obtain ⟨i, hi, habs, j, hj, hpos, rfl, rfl⟩ := h
    obtain ⟨hline, hspace⟩ := lastIndexOf_some hi
    obtain ⟨hpath, hslash⟩ := lastIndexOf_some hj
    refine ⟨_, ⟨_, hline, hspace⟩, hpath, hslash, ?_⟩
    exact List.prefix_take_iff.mpr ⟨List.isPrefixOf_iff_prefix.mp habs, hpos⟩
  · rintro ⟨path, ⟨before, rfl, hspace⟩, rfl, hslash, habs⟩
    have hpos : 0 < dir.length := habs.length_le
    have hbegins : [slash] <+: dir ++ slash :: base := habs.trans (List.prefix_append _ _)
    have hdrop : (before ++ space :: (dir ++ slash :: base)).drop (before.length + 1) =
        dir ++ slash :: base := by simp
    simp only [mappedFile, lastIndexOf_append hspace, Option.bind_eq_bind, Option.bind_some,
      hdrop, lastIndexOf_append hslash, startsWith, List.isPrefixOf_iff_prefix]
    simp [hbegins, hpos]

end Lines

section Line

variable {s : Scan} {line dir : CodeUnits}

/-- A line adds a directory to one of the lists, or nothing. -/
theorem scanLine_cases (s : Scan) (line : CodeUnits) :
    (scanLine s line = s ∧ ∀ dir base, mappedFile line = some (dir, base) → dir ∈ s.seen) ∨
    ∃ dir base, mappedFile line = some (dir, base) ∧ dir ∉ s.seen ∧
      (looksBundled dir base ∧ scanLine s line =
          { s with seen := dir :: s.seen, preferred := s.preferred ++ [dir] } ∨
        ¬looksBundled dir base ∧ scanLine s line =
          { s with seen := dir :: s.seen, rest := s.rest ++ [dir] }) := by
  cases h : mappedFile line with
  | none => exact .inl ⟨by simp [scanLine, h], by simp⟩
  | some file =>
    obtain ⟨dir, base⟩ := file
    by_cases hseen : dir ∈ s.seen
    · refine .inl ⟨by simp [scanLine, h, hseen], ?_⟩
      rintro d b ⟨⟩
      exact hseen
    · refine .inr ⟨dir, base, rfl, hseen, ?_⟩
      by_cases hlooks : looksBundled dir base
      · exact .inl ⟨hlooks, by simp [scanLine, h, hseen, hlooks]⟩
      · exact .inr ⟨hlooks, by simp [scanLine, h, hseen, hlooks]⟩

theorem mem_scanLine_seen : dir ∈ (scanLine s line).seen ↔
    dir ∈ s.seen ∨ ∃ base, mappedFile line = some (dir, base) := by
  obtain ⟨hs, hseen⟩ | ⟨d, b, hfile, hnew, ⟨-, hs⟩ | ⟨-, hs⟩⟩ := scanLine_cases s line
  · rw [hs]
    refine ⟨.inl, ?_⟩
    rintro (hd | ⟨base, hfile⟩)
    · exact hd
    · exact hseen dir base hfile
  all_goals
    rw [hs, hfile]
    simp [or_comm, eq_comm]

theorem mem_scanLine_preferred (h : dir ∈ (scanLine s line).preferred) : dir ∈ s.preferred ∨
    ∃ base, mappedFile line = some (dir, base) ∧ looksBundled dir base := by
  obtain ⟨hs, -⟩ | ⟨d, b, hfile, -, ⟨hlooks, hs⟩ | ⟨-, hs⟩⟩ := scanLine_cases s line
  · exact .inl (hs ▸ h)
  · rw [hs] at h
    obtain hd | hd := List.mem_append.mp h
    · exact .inl hd
    · obtain rfl := List.mem_singleton.mp hd
      exact .inr ⟨b, hfile, hlooks⟩
  · exact .inl (by simpa [hs] using h)

theorem mem_scanLine_rest (h : dir ∈ (scanLine s line).rest) : dir ∈ s.rest ∨
    ∃ base, mappedFile line = some (dir, base) ∧ ¬looksBundled dir base := by
  obtain ⟨hs, -⟩ | ⟨d, b, hfile, -, ⟨-, hs⟩ | ⟨hlooks, hs⟩⟩ := scanLine_cases s line
  · exact .inl (hs ▸ h)
  · exact .inl (by simpa [hs] using h)
  · rw [hs] at h
    obtain hd | hd := List.mem_append.mp h
    · exact .inl hd
    · obtain rfl := List.mem_singleton.mp hd
      exact .inr ⟨b, hfile, hlooks⟩

theorem scanLine_nodup (h : s.seen.Nodup) : (scanLine s line).seen.Nodup := by
  obtain ⟨hs, -⟩ | ⟨d, b, -, hnew, ⟨-, hs⟩ | ⟨-, hs⟩⟩ := scanLine_cases s line
  · rwa [hs]
  all_goals
    rw [hs]
    exact List.nodup_cons.mpr ⟨hnew, h⟩

theorem scanLine_listed (h : s.searchOrder.Perm s.seen) :
    (scanLine s line).searchOrder.Perm (scanLine s line).seen := by
  obtain ⟨hs, -⟩ | ⟨d, b, -, -, ⟨-, hs⟩ | ⟨-, hs⟩⟩ := scanLine_cases s line
  · rwa [hs]
  · rw [hs]
    change ((s.preferred ++ [d]) ++ s.rest).Perm (d :: s.seen)
    rw [List.append_assoc]
    exact List.perm_middle.trans (h.cons d)
  · rw [hs]
    change (s.preferred ++ (s.rest ++ [d])).Perm (d :: s.seen)
    rw [← List.append_assoc]
    exact (List.perm_append_singleton d _).trans (h.cons d)

/-- What is on the lists stays there. -/
theorem scanLine_keeps (s : Scan) (line : CodeUnits) :
    s.preferred ⊆ (scanLine s line).preferred ∧ s.rest ⊆ (scanLine s line).rest := by
  obtain ⟨hs, -⟩ | ⟨d, b, -, -, ⟨-, hs⟩ | ⟨-, hs⟩⟩ := scanLine_cases s line
  all_goals simp [hs]

end Line

section Run

variable {lines : List CodeUnits} {line dir base : CodeUnits}

def Found (lines : List CodeUnits) (dir base : CodeUnits) : Prop :=
  ∃ line ∈ lines, mappedFile line = some (dir, base)

theorem found_append : Found (lines ++ [line]) dir base ↔
    Found lines dir base ∨ mappedFile line = some (dir, base) := by
  simp [Found, or_and_right, exists_or]

theorem Found.keep (h : Found lines dir base) : Found (lines ++ [line]) dir base :=
  found_append.mpr (.inl h)

theorem Found.last (h : mappedFile line = some (dir, base)) : Found (lines ++ [line]) dir base :=
  found_append.mpr (.inr h)

/-- What the scan of some lines has come to. -/
structure ScanOf (lines : List CodeUnits) (s : Scan) : Prop where
  listed : s.searchOrder.Perm s.seen
  nodup : s.seen.Nodup
  seen : ∀ dir, dir ∈ s.seen ↔ ∃ base, Found lines dir base
  preferred : ∀ dir ∈ s.preferred, ∃ base, Found lines dir base ∧ looksBundled dir base
  rest : ∀ dir ∈ s.rest, ∃ base, Found lines dir base ∧ ¬looksBundled dir base

theorem ScanOf.next {s : Scan} (h : ScanOf lines s) :
    ScanOf (lines ++ [line]) (scanLine s line) := by
  refine ⟨scanLine_listed h.listed, scanLine_nodup h.nodup, ?_, ?_, ?_⟩
  · intro d
    simp only [mem_scanLine_seen, h.seen, found_append, exists_or]
  · intro d hd
    obtain hd | ⟨b, hfile, hlooks⟩ := mem_scanLine_preferred hd
    · obtain ⟨b, hb, hlooks⟩ := h.preferred d hd
      exact ⟨b, hb.keep, hlooks⟩
    · exact ⟨b, .last hfile, hlooks⟩
  · intro d hd
    obtain hd | ⟨b, hfile, hlooks⟩ := mem_scanLine_rest hd
    · obtain ⟨b, hb, hlooks⟩ := h.rest d hd
      exact ⟨b, hb.keep, hlooks⟩
    · exact ⟨b, .last hfile, hlooks⟩

theorem scanOf_scan (lines : List CodeUnits) : ScanOf lines (scan lines) := by
  induction lines using List.reverseRecOn with
  | nil => constructor <;> simp [scan, Found, Scan.searchOrder]
  | append_singleton lines line ih =>
    rw [scan, List.foldl_append]
    exact ih.next

theorem foldl_scanLine_keeps (lines : List CodeUnits) (s : Scan) :
    s.preferred ⊆ (lines.foldl scanLine s).preferred ∧
      s.rest ⊆ (lines.foldl scanLine s).rest := by
  induction lines generalizing s with
  | nil => simp
  | cons line lines ih =>
    obtain ⟨hpreferred, hrest⟩ := scanLine_keeps s line
    obtain ⟨hpreferred', hrest'⟩ := ih (scanLine s line)
    exact ⟨List.Subset.trans hpreferred hpreferred', List.Subset.trans hrest hrest'⟩

theorem mem_searchOrder : dir ∈ (scan lines).searchOrder ↔ ∃ base, Found lines dir base := by
  rw [(scanOf_scan lines).listed.mem_iff, (scanOf_scan lines).seen]

theorem searchOrder_nodup (lines : List CodeUnits) : (scan lines).searchOrder.Nodup :=
  (scanOf_scan lines).listed.nodup_iff.mpr (scanOf_scan lines).nodup

theorem not_preferred_of_rest (h : dir ∈ (scan lines).rest) : dir ∉ (scan lines).preferred := by
  intro hpreferred
  exact (List.nodup_append.mp (searchOrder_nodup lines)).2.2 dir hpreferred dir h rfl

/-- A directory's first file decides where it goes. -/
theorem first_decides (h : mappedFile line = some (dir, base)) :
    dir ∈ (scan (line :: lines)).preferred ↔ looksBundled dir base := by
  obtain ⟨hpreferred, hrest⟩ := foldl_scanLine_keeps lines (scanLine {} line)
  constructor
  · intro hdir
    by_contra hlooks
    have hin : dir ∈ (scanLine {} line).rest := by simp [scanLine, h, hlooks]
    exact not_preferred_of_rest (hrest hin) hdir
  · intro hlooks
    exact hpreferred (by simp [scanLine, h, hlooks])

end Run

section Search

/-- A line of `/proc/self/maps`. The kernel writes the path as it is, spaces included. -/
structure MapsLine where
  fields : CodeUnits
  pathname : CodeUnits

def MapsLine.text (line : MapsLine) : CodeUnits := line.fields ++ space :: line.pathname

variable (lines : List MapsLine) (dir base : CodeUnits)

def scanMaps : Scan := scan (lines.map MapsLine.text)

def Mapped : Prop := ∃ line ∈ lines, FileIn line.pathname dir base

/-- A directory that looks like a bundle's. -/
def Bundled : Prop :=
  ∃ base, Mapped lines dir base ∧
    (units "/lib" <:+ dir ∨ base = units "libapp.so" ∨ units "libflutter" <+: base)

/-- What the search is for. -/
structure Searched : Prop where
  once : (scanMaps lines).searchOrder.Nodup
  mapped : ∀ dir, dir ∈ (scanMaps lines).searchOrder ↔ ∃ base, Mapped lines dir base
  preferred : ∀ dir, dir ∈ (scanMaps lines).preferred ↔ Bundled lines dir
  bundledFirst : (scanMaps lines).searchOrder.Pairwise fun d e => Bundled lines e → Bundled lines d
  anyOrder : ∀ lines', lines'.Perm lines →
    ∀ dir, dir ∈ (scanMaps lines').preferred ↔ dir ∈ (scanMaps lines).preferred

/-- The path after the last space of a line. -/
def Read : Prop := ∃ line ∈ lines, ∃ path, LastField line.text path ∧ FileIn path dir base

/-- The paths that are read have the directories of those that are mapped, and each of them
tells whether its directory is a bundle's. -/
structure Uniform : Prop where
  legible : ∀ dir, (∃ base, Read lines dir base) ↔ ∃ base, Mapped lines dir base
  alike : ∀ dir base, Read lines dir base → (looksBundled dir base ↔ Bundled lines dir)

variable {lines dir base}

theorem looksBundled_iff : looksBundled dir base ↔
    units "/lib" <:+ dir ∨ base = units "libapp.so" ∨ units "libflutter" <+: base := by
  simp [looksBundled, endsWith, startsWith, or_assoc]

theorem found_text : Found (lines.map MapsLine.text) dir base ↔ Read lines dir base := by
  simp [Found, Read, mappedFile_iff]

theorem mem_order : dir ∈ (scanMaps lines).searchOrder ↔ ∃ base, Read lines dir base := by
  simp only [scanMaps, mem_searchOrder, found_text]

theorem Mapped.perm {lines' : List MapsLine} (h : lines'.Perm lines) :
    Mapped lines' dir base ↔ Mapped lines dir base := by
  simp only [Mapped, h.mem_iff]

theorem Uniform.perm {lines' : List MapsLine} (h : Uniform lines) (hperm : lines'.Perm lines) :
    Uniform lines' := by
  refine ⟨?_, ?_⟩
  · intro d
    simpa only [Read, Mapped, hperm.mem_iff] using h.legible d
  · intro d b
    simpa only [Read, Bundled, Mapped, hperm.mem_iff] using h.alike d b

theorem Uniform.preferred (h : Uniform lines) :
    dir ∈ (scanMaps lines).preferred ↔ Bundled lines dir := by
  have hscan := scanOf_scan (lines.map MapsLine.text)
  constructor
  · intro hdir
    obtain ⟨b, hb, hlooks⟩ := hscan.preferred dir hdir
    exact (h.alike dir b (found_text.mp hb)).mp hlooks
  · intro hbundled
    have hread : ∃ b, Read lines dir b := by
      obtain ⟨b, hmapped, -⟩ := hbundled
      exact (h.legible dir).mpr ⟨b, hmapped⟩
    obtain hdir | hdir := List.mem_append.mp (mem_order.mpr hread)
    · exact hdir
    · obtain ⟨b, hb, hlooks⟩ := hscan.rest dir hdir
      exact absurd ((h.alike dir b (found_text.mp hb)).mpr hbundled) hlooks

theorem Uniform.searched (h : Uniform lines) : Searched lines where
  once := searchOrder_nodup _
  mapped d := by rw [mem_order, h.legible]
  preferred d := h.preferred
  bundledFirst := by
    refine List.pairwise_append.mpr ⟨?_, ?_, ?_⟩
    · exact List.pairwise_of_forall_mem_list fun d hd e _ _ => h.preferred.mp hd
    · refine List.pairwise_of_forall_mem_list fun d _ e he hbundled => ?_
      exact absurd (h.preferred.mpr hbundled) (not_preferred_of_rest he)
    · intro d hd e _ _
      exact h.preferred.mp hd
  anyOrder lines' hperm d := by
    rw [(h.perm hperm).preferred, h.preferred]
    simp only [Bundled, Mapped.perm hperm]

theorem Searched.uniform (h : Searched lines) : Uniform lines := by
  refine ⟨?_, ?_⟩
  · intro d
    rw [← mem_order, h.mapped]
  · rintro d b ⟨line, hline, hread⟩
    -- The line of this file comes first in another order of the lines.
    obtain ⟨before, after, rfl⟩ := List.append_of_mem hline
    have hperm : (line :: (before ++ after)).Perm (before ++ line :: after) :=
      List.perm_middle.symm
    have hfirst : d ∈ (scanMaps (line :: (before ++ after))).preferred ↔ looksBundled d b :=
      first_decides (mappedFile_iff.mpr hread)
    rw [← hfirst, ← h.preferred]
    exact h.anyOrder _ hperm d

theorem searched_iff_uniform (lines : List MapsLine) : Searched lines ↔ Uniform lines :=
  ⟨Searched.uniform, Uniform.searched⟩

/-- The directory is seen with its first file, which is not the snapshot. -/
theorem snapshot_second_not_searched :
    ¬Searched [⟨units "7f10-7f20 r-xp 00000000 08:02 17", units "/opt/app/libfoo.so"⟩,
      ⟨units "7f20-7f30 r-xp 00000000 08:02 18", units "/opt/app/libapp.so"⟩] := by
  intro h
  have hbundled : Bundled [⟨units "7f10-7f20 r-xp 00000000 08:02 17", units "/opt/app/libfoo.so"⟩,
      ⟨units "7f20-7f30 r-xp 00000000 08:02 18", units "/opt/app/libapp.so"⟩]
      (units "/opt/app") := by
    refine ⟨units "libapp.so", ⟨_, List.mem_cons_of_mem _ (List.mem_singleton_self _), ?_⟩,
      .inr (.inl rfl)⟩
    exact ⟨by decide, by decide, by decide⟩
  exact absurd ((h.preferred _).mpr hbundled) (by decide)

/-- Where no path has a space in it, the files of each directory have to agree. -/
theorem uniform_iff_agree (h : ∀ line ∈ lines, space ∉ line.pathname) :
    Uniform lines ↔ ∀ dir base base', Mapped lines dir base → Mapped lines dir base' →
      looksBundled dir base → looksBundled dir base' := by
  have hread : ∀ dir base, Read lines dir base ↔ Mapped lines dir base := by
    intro dir base
    constructor
    · rintro ⟨line, hline, path, hpath, hfile⟩
      obtain rfl := hpath.unique ⟨line.fields, rfl, h line hline⟩
      exact ⟨line, hline, hfile⟩
    · rintro ⟨line, hline, hfile⟩
      exact ⟨line, hline, _, ⟨_, rfl, h line hline⟩, hfile⟩
  constructor
  · intro hu dir base base' hb hb' hlooks
    exact (hu.alike dir base' ((hread ..).mpr hb')).mpr
      ((hu.alike dir base ((hread ..).mpr hb)).mp hlooks)
  · intro hagree
    refine ⟨by simp only [hread, implies_true], ?_⟩
    intro dir base hb
    constructor
    · intro hlooks
      exact ⟨base, (hread ..).mp hb, looksBundled_iff.mp hlooks⟩
    · rintro ⟨b, hmapped, hlooks⟩
      exact hagree dir b base hmapped ((hread ..).mp hb) (looksBundled_iff.mpr hlooks)

end Search

section Sibling

variable {lines : List MapsLine} {existsSync : CodeUnits → Bool} {name path : CodeUnits}

theorem sibling_eq_none :
    siblingOfMappedLibrary true (some (lines.map MapsLine.text)) existsSync name = none ↔
      ∀ dir base, Read lines dir base → ¬existsSync (inDirectory dir name) := by
  have horder : ∀ dir, dir ∈ (scan (lines.map MapsLine.text)).searchOrder ↔
      ∃ base, Read lines dir base := fun dir => mem_order
  simp only [siblingOfMappedLibrary, guard_true, Option.bind_eq_bind]
  simp [List.find?_eq_none, horder]

/-- Whatever else has the library, one in a bundle's directory is opened first. -/
theorem sibling_bundled (h : Uniform lines) {dir : CodeUnits} (hdir : Bundled lines dir)
    (hexists : existsSync (inDirectory dir name))
    (hfound : siblingOfMappedLibrary true (some (lines.map MapsLine.text)) existsSync name =
      some path) : ∃ d, Bundled lines d ∧ path = inDirectory d name := by
  have hmem : inDirectory dir name ∈ (scanMaps lines).preferred.map (inDirectory · name) :=
    List.mem_map_of_mem (h.preferred.mpr hdir)
  change (((scanMaps lines).preferred ++ (scanMaps lines).rest).map
    (inDirectory · name)).find? existsSync = some path at hfound
  rw [List.map_append, List.find?_append] at hfound
  cases hfirst : ((scanMaps lines).preferred.map (inDirectory · name)).find? existsSync with
  | none => exact absurd hexists (List.find?_eq_none.mp hfirst _ hmem)
  | some p =>
    rw [hfirst] at hfound
    obtain rfl := Option.some.inj hfound
    obtain ⟨d, hd, heq⟩ := List.mem_map.mp (List.mem_of_find?_eq_some hfirst)
    exact ⟨d, h.preferred.mp hd, heq.symm⟩

end Sibling

end LibraryLoader

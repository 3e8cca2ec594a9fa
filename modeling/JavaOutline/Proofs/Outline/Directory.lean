import JavaOutline.Program

/-!
# A run lists every source file once

A file in a tree of directories has an address: the numbers of the entries on the way down to it.
`Precedes` is the order in which a directory is listed: its own files come before those of the
directories in it, and apart from that the entries come in the order in which the directory holds
them. The files that a run reads are exactly the files named `….java` in this order
(`sources_eq`, `mem_located`, `pairwise_located`). It writes the outlines of all of them, or nothing
at all if one has none (`run_lists_sources`).
-/

namespace JavaOutline

/-- A file in a tree of directories. -/
structure Located where
  /-- The number of the entry in each directory on the way down, the file's own number last. -/
  address : List Nat
  /-- The names on that way, the file's own name last. -/
  names : List (List Char)
  contents : Option (List UInt8)
  deriving DecidableEq

/-- The names on the way to the file at an address, and its contents, if there is a file. -/
def fileAt? : List Entry → List Nat → Option (List (List Char) × Option (List UInt8))
  | _, [] => none
  | entries, i :: is =>
    match entries[i]? with
    | none => none
    | some (.file name contents) => if is = [] then some ([name], contents) else none
    | some (.directory name below) => (fileAt? below is).map fun f => (name :: f.1, f.2)

/-- The order of addresses: the files of a directory come before those of the directories in it. -/
def Precedes : List Nat → List Nat → Prop
  | [i], [j] => i < j
  | [_], _ :: _ :: _ => True
  | i :: i' :: is, j :: j' :: js => i < j ∨ i = j ∧ Precedes (i' :: is) (j' :: js)
  | _, _ => False

namespace Located

/-- The path of the file in a directory with the given path. -/
def path (directory : List Char) (f : Located) : List Char := f.names.foldl joinPath directory

/-- The file as one to be outlined. -/
def source (directory : List Char) (methodsOnly : Bool) (f : Located) : SourceFile :=
  ⟨f.path directory, f.contents, methodsOnly⟩

/-- The file as one that has been found. -/
def found (directory : List Char) (f : Located) : FoundFile := ⟨f.path directory, f.contents⟩

/-- The file seen from the directory above, in which the present one has this number and name. -/
def inside (i : Nat) (name : List Char) (f : Located) : Located :=
  ⟨i :: f.address, name :: f.names, f.contents⟩

@[simp] theorem inside_address (i : Nat) (name : List Char) (f : Located) :
    (f.inside i name).address = i :: f.address := rfl

@[simp] theorem found_inside (i : Nat) (name directory : List Char) (f : Located) :
    (f.inside i name).found directory = f.found (joinPath directory name) := rfl

end Located

/-! ## The source files with their addresses -/

/-- The source files in a directory itself; the first entry has the number `i`. -/
def locatedHere (i : Nat) : List Entry → List Located
  | [] => []
  | .file name contents :: es =>
    if isSourceName name then ⟨[i], [name], contents⟩ :: locatedHere (i + 1) es
    else locatedHere (i + 1) es
  | .directory _ _ :: es => locatedHere (i + 1) es

mutual

/-- The source files of one entry of a directory, if that is a directory too. -/
def Entry.located (i : Nat) : Entry → List Located
  | .file _ _ => []
  | .directory name entries =>
    (locatedHere 0 entries ++ locatedBelow 0 entries).map (Located.inside i name)

/-- The source files in the directories of a directory; the first entry has the number `i`. -/
def locatedBelow (i : Nat) : List Entry → List Located
  | [] => []
  | e :: es => e.located i ++ locatedBelow (i + 1) es

end

/-- The source files of a directory: its own, then those of the directories in it. -/
def located (entries : List Entry) : List Located := locatedHere 0 entries ++ locatedBelow 0 entries

theorem sourcesHere_eq (directory : List Char) (i : Nat) (entries : List Entry) :
    sourcesHere directory entries = (locatedHere i entries).map (Located.found directory) := by
  induction entries generalizing i with
  | nil => rfl
  | cons e es ih =>
    cases e with
    | file name contents =>
      simp only [sourcesHere, locatedHere]
      split
      · rw [List.map_cons, ih (i + 1)]
        rfl
      · exact ih (i + 1)
    | directory name entries => exact ih (i + 1)

mutual

theorem Entry.sources_eq (directory : List Char) (i : Nat) :
    ∀ e : Entry, e.sources directory = (e.located i).map (Located.found directory)
  | .file _ _ => by rw [Entry.sources, Entry.located, List.map_nil]
  | .directory name entries => by
    have hfound : Located.found directory ∘ Located.inside i name =
        Located.found (joinPath directory name) := rfl
    rw [Entry.sources, Entry.located, List.map_map, hfound, List.map_append,
      sourcesHere_eq _ 0 entries, sourcesBelow_eq _ 0 entries]

theorem sourcesBelow_eq (directory : List Char) (i : Nat) : ∀ entries : List Entry,
    sourcesBelow directory entries = (locatedBelow i entries).map (Located.found directory)
  | [] => by rw [sourcesBelow, locatedBelow, List.map_nil]
  | e :: es => by
    rw [sourcesBelow, locatedBelow, List.map_append, Entry.sources_eq directory i e,
      sourcesBelow_eq directory (i + 1) es]

end

/-- The files that are found are those with addresses. -/
theorem sources_eq (directory : List Char) (entries : List Entry) :
    sources directory entries = (located entries).map (Located.found directory) := by
  rw [sources, located, List.map_append, ← sourcesHere_eq, ← sourcesBelow_eq]

/-! ## Every file once, and nothing else -/

/-- The file is the one at its address, and it is a source file. -/
def Located.IsSource (entries : List Entry) (f : Located) : Prop :=
  fileAt? entries f.address = some (f.names, f.contents) ∧
    ∃ stem, f.names.getLast? = some (stem ++ ".java".toList)

theorem isSourceName_iff {name : List Char} :
    isSourceName name = true ↔ ∃ stem, name = stem ++ ".java".toList := by
  rw [isSourceName, List.isSuffixOf_iff_suffix]
  exact exists_congr fun stem => eq_comm

theorem mem_locatedHere {i : Nat} {entries : List Entry} {f : Located} :
    f ∈ locatedHere i entries ↔ ∃ j name, entries[j]? = some (.file name f.contents) ∧
      isSourceName name = true ∧ f.address = [i + j] ∧ f.names = [name] := by
  induction entries generalizing i with
  | nil => simp [locatedHere]
  | cons e es ih =>
    -- The first entry has the number 0, the number of any other one is one more than among the rest.
    have hrest : (∃ j name, (e :: es)[j]? = some (.file name f.contents) ∧
        isSourceName name = true ∧ f.address = [i + j] ∧ f.names = [name]) ↔
        (∃ name, e = .file name f.contents ∧ isSourceName name = true ∧ f.address = [i] ∧
          f.names = [name]) ∨ f ∈ locatedHere (i + 1) es := by
      rw [ih]
      constructor
      · rintro ⟨_ | j, name, hj, h⟩
        · exact .inl ⟨name, by simpa using hj, h⟩
        · exact .inr ⟨j, name, by simpa using hj, by rwa [Nat.add_right_comm]⟩
      · rintro (⟨name, rfl, h⟩ | ⟨j, name, hj, h⟩)
        · exact ⟨0, name, rfl, h⟩
        · exact ⟨j + 1, name, by simpa using hj, by rwa [Nat.add_right_comm] at h⟩
    rw [hrest]
    cases e with
    | file name contents =>
      simp only [locatedHere, Entry.file.injEq]
      split
      · rename_i hname
        rw [List.mem_cons]
        refine or_congr_left ⟨?_, ?_⟩
        · rintro rfl
          exact ⟨name, ⟨rfl, rfl⟩, hname, rfl, rfl⟩
        · rintro ⟨_, ⟨rfl, hcontents⟩, -, haddress, hnames⟩
          cases f
          simp_all
      · rename_i hname
        refine (or_iff_right ?_).symm
        rintro ⟨_, ⟨rfl, -⟩, h, -⟩
        exact hname h
    | directory name below => simp [locatedHere]

theorem mem_locatedBelow {i : Nat} {entries : List Entry} {f : Located} :
    f ∈ locatedBelow i entries ↔ ∃ j name below, entries[j]? = some (.directory name below) ∧
      ∃ g ∈ located below, f = g.inside (i + j) name := by
  induction entries generalizing i with
  | nil => simp [locatedBelow]
  | cons e es ih =>
    have hrest : (∃ j name below, (e :: es)[j]? = some (.directory name below) ∧
        ∃ g ∈ located below, f = g.inside (i + j) name) ↔
        (∃ name below, e = .directory name below ∧ ∃ g ∈ located below, f = g.inside i name) ∨
          f ∈ locatedBelow (i + 1) es := by
      rw [ih]
      constructor
      · rintro ⟨_ | j, name, below, hj, h⟩
        · exact .inl ⟨name, below, by simpa using hj, h⟩
        · exact .inr ⟨j, name, below, by simpa using hj, by rwa [Nat.add_right_comm]⟩
      · rintro (⟨name, below, rfl, h⟩ | ⟨j, name, below, hj, h⟩)
        · exact ⟨0, name, below, rfl, h⟩
        · exact ⟨j + 1, name, below, by simpa using hj, by rwa [Nat.add_right_comm] at h⟩
    rw [hrest, locatedBelow, List.mem_append]
    refine or_congr_left ?_
    cases e with
    | file name contents => simp [Entry.located]
    | directory name below =>
      simp only [Entry.located, List.mem_map, Entry.directory.injEq]
      constructor
      · rintro ⟨g, hg, rfl⟩
        exact ⟨name, below, ⟨rfl, rfl⟩, g, hg, rfl⟩
      · rintro ⟨_, _, ⟨rfl, rfl⟩, g, hg, rfl⟩
        exact ⟨g, hg, rfl⟩

/-- No file has the empty address. -/
theorem address_ne_nil {entries : List Entry} {f : Located} (hf : f ∈ located entries) :
    f.address ≠ [] := by
  rcases List.mem_append.1 hf with h | h
  · obtain ⟨j, name, -, -, haddress, -⟩ := mem_locatedHere.1 h
    simp [haddress]
  · obtain ⟨j, name, below, -, g, -, rfl⟩ := mem_locatedBelow.1 h
    simp

/-- The names on the way to a file end with its own name. -/
theorem names_ne_nil {entries : List Entry} {a : List Nat} {names : List (List Char)}
    {contents : Option (List UInt8)} (h : fileAt? entries a = some (names, contents)) :
    names ≠ [] := by
  rintro rfl
  cases a with
  | nil => simp [fileAt?] at h
  | cons i is =>
    rw [fileAt?] at h
    split at h <;> simp_all

/-- A file below a directory is seen from above under its longer address. -/
theorem isSource_inside {entries below : List Entry} {i : Nat} {name : List Char} {f : Located}
    (hi : entries[i]? = some (.directory name below)) :
    (f.inside i name).IsSource entries ↔ f.IsSource below := by
  have hfile : fileAt? entries (f.inside i name).address =
      some ((f.inside i name).names, (f.inside i name).contents) ↔
      fileAt? below f.address = some (f.names, f.contents) := by
    simp [Located.inside, fileAt?, hi]
  rw [Located.IsSource, Located.IsSource, hfile]
  refine and_congr_right fun hbelow => ?_
  obtain ⟨n, ns, hnames⟩ := List.exists_cons_of_ne_nil (names_ne_nil hbelow)
  simp [Located.inside, hnames]

/-- The listed files are exactly the source files, however deep they lie. -/
theorem mem_located {f : Located} {entries : List Entry} :
    f ∈ located entries ↔ f.IsSource entries := by
  obtain ⟨address, names, contents⟩ := f
  induction address generalizing entries names contents with
  | nil =>
    refine iff_of_false (fun hf => address_ne_nil hf rfl) ?_
    rintro ⟨hfile, -⟩
    simp [fileAt?] at hfile
  | cons i is ih =>
    rw [located, List.mem_append, mem_locatedHere, mem_locatedBelow]
    constructor
    · rintro (⟨j, name, hj, hname, haddress, hnames⟩ | ⟨j, name, below, hj, g, hg, hf⟩)
      · simp only [Nat.zero_add, List.cons.injEq] at haddress
        obtain ⟨rfl, rfl⟩ := haddress
        obtain rfl : names = [name] := hnames
        refine ⟨by simp [fileAt?, hj], ?_⟩
        obtain ⟨stem, rfl⟩ := isSourceName_iff.1 hname
        exact ⟨stem, rfl⟩
      · rw [Nat.zero_add] at hf
        rw [hf, isSource_inside hj]
        obtain ⟨address', names', contents'⟩ := g
        simp only [Located.inside, Located.mk.injEq, List.cons.injEq] at hf
        obtain ⟨⟨-, rfl⟩, -, -⟩ := hf
        exact (ih ..).1 hg
    · rintro ⟨hfile, stem, hstem⟩
      rw [fileAt?] at hfile
      split at hfile
      · cases hfile
      · rename_i name contents' hi
        split at hfile
        · rename_i his
          simp only [Option.some.injEq, Prod.mk.injEq] at hfile
          obtain ⟨rfl, rfl⟩ := hfile
          refine .inl ⟨i, name, hi, ?_, by simp [his], rfl⟩
          simp only [List.getLast?_singleton, Option.some.injEq] at hstem
          exact isSourceName_iff.2 ⟨stem, hstem⟩
        · cases hfile
      · rename_i name below hi
        obtain ⟨⟨names', contents'⟩, hbelow, heq⟩ := Option.map_eq_some_iff.1 hfile
        simp only [Prod.mk.injEq] at heq
        obtain ⟨rfl, rfl⟩ := heq
        refine .inr ⟨i, name, below, hi, ⟨is, names', contents'⟩, ?_, by simp [Located.inside]⟩
        refine (ih ..).2 ((isSource_inside hi).1 ⟨?_, stem, hstem⟩)
        simp [Located.inside, fileAt?, hi, hbelow]

/-- The numbers of a directory's own files grow. -/
theorem pairwise_locatedHere (i : Nat) (entries : List Entry) :
    (locatedHere i entries).Pairwise fun f g => Precedes f.address g.address := by
  induction entries generalizing i with
  | nil => exact .nil
  | cons e es ih =>
    cases e with
    | file name contents =>
      rw [locatedHere]
      split
      · refine List.pairwise_cons.2 ⟨fun g hg => ?_, ih (i + 1)⟩
        obtain ⟨j, -, -, -, haddress, -⟩ := mem_locatedHere.1 hg
        rw [haddress]
        show i < i + 1 + j
        omega
      · exact ih (i + 1)
    | directory name below => exact ih (i + 1)

/-- The order of two files in one directory is their order seen from the directory above. -/
theorem Precedes.cons {a b : List Nat} (h : Precedes a b) (i : Nat) : Precedes (i :: a) (i :: b) := by
  cases a with
  | nil => simp [Precedes] at h
  | cons j a =>
    cases b with
    | nil => simp [Precedes] at h
    | cons k b => exact .inr ⟨rfl, h⟩

/-- A directory's own files come before those of the directories in it. -/
theorem here_precedes_below {entries : List Entry} {i i' : Nat} {f g : Located}
    (hf : f ∈ locatedHere i entries) (hg : g ∈ locatedBelow i' entries) :
    Precedes f.address g.address := by
  obtain ⟨j, -, -, -, hj, -⟩ := mem_locatedHere.1 hf
  obtain ⟨k, name, below, -, g, hg', rfl⟩ := mem_locatedBelow.1 hg
  obtain ⟨l, ls, hl⟩ := List.exists_cons_of_ne_nil (address_ne_nil hg')
  rw [hj, Located.inside_address, hl]
  trivial

/-- Directories are listed one after the other. -/
theorem below_precedes_below {es : List Entry} {e : Entry} {i : Nat} {f g : Located}
    (hf : f ∈ e.located i) (hg : g ∈ locatedBelow (i + 1) es) : Precedes f.address g.address := by
  obtain ⟨k, name', below', -, g', hg', rfl⟩ := mem_locatedBelow.1 hg
  obtain ⟨m, ms, hm⟩ := List.exists_cons_of_ne_nil (address_ne_nil hg')
  cases e with
  | file name contents => simp [Entry.located] at hf
  | directory name below =>
    rw [Entry.located] at hf
    obtain ⟨f', hf', rfl⟩ := List.mem_map.1 hf
    obtain ⟨l, ls, hl⟩ := List.exists_cons_of_ne_nil (address_ne_nil hf')
    rw [Located.inside_address, Located.inside_address, hl, hm]
    exact .inl (by omega)

mutual

theorem Entry.pairwise_located (i : Nat) : ∀ e : Entry,
    (e.located i).Pairwise fun f g => Precedes f.address g.address
  | .file _ _ => by
    rw [Entry.located]
    exact .nil
  | .directory name entries => by
    rw [Entry.located, List.pairwise_map]
    refine List.Pairwise.imp (fun h => h.cons i) (List.pairwise_append.2
      ⟨pairwise_locatedHere 0 entries, pairwise_locatedBelow 0 entries, ?_⟩)
    exact fun f hf g hg => here_precedes_below hf hg

theorem pairwise_locatedBelow (i : Nat) : ∀ entries : List Entry,
    (locatedBelow i entries).Pairwise fun f g => Precedes f.address g.address
  | [] => by
    rw [locatedBelow]
    exact .nil
  | e :: es => by
    rw [locatedBelow]
    refine List.pairwise_append.2
      ⟨Entry.pairwise_located i e, pairwise_locatedBelow (i + 1) es, ?_⟩
    exact fun f hf g hg => below_precedes_below hf hg

end

/-- The files are listed in order, and so each of them once. -/
theorem pairwise_located (entries : List Entry) :
    (located entries).Pairwise fun f g => Precedes f.address g.address :=
  List.pairwise_append.2 ⟨pairwise_locatedHere 0 entries, pairwise_locatedBelow 0 entries,
    fun _ hf _ hg => here_precedes_below hf hg⟩

/-! ## All outlines or the first file without one -/

@[simp] theorem length_outlineFiles (packages : List (List Char)) (files : List SourceFile) :
    (outlineFiles packages files).length = files.length := by
  induction files generalizing packages with
  | nil => rfl
  | cons f fs ih => simp [outlineFiles, ih]

/-- If all files have outlines, these are the outlines of all. -/
theorem allOutlines_of_ok {files : List FoundFile} {outlines : List FileOutline}
    {texts : List (List Char)} (hlength : outlines.length = files.length)
    (h : outlines.map (·.result) = texts.map .ok) : allOutlines (files.zip outlines) = .ok texts := by
  induction files generalizing outlines texts with
  | nil =>
    obtain rfl : outlines = [] := List.length_eq_zero_iff.1 hlength
    obtain rfl : texts = [] := by simpa using h.symm
    rfl
  | cons f fs ih =>
    obtain ⟨o, os, rfl⟩ := List.exists_cons_of_length_eq_add_one hlength
    cases texts with
    | nil => simp at h
    | cons text texts =>
      simp only [List.map_cons, List.cons.injEq] at h
      rw [List.zip_cons_cons, allOutlines, h.1]
      simp only [ih (by simpa using hlength) h.2]
      rfl

/-- Otherwise the first file without an outline is reported. -/
theorem allOutlines_of_error {files : List FoundFile} {outlines : List FileOutline} {i : Nat}
    {f : FoundFile} {o : FileOutline} {fault : FileFault} (hf : files[i]? = some f)
    (ho : outlines[i]? = some o) (hfault : o.result = .error fault)
    (hfirst : ∀ j < i, ∀ o', outlines[j]? = some o' → ∃ text, o'.result = .ok text) :
    allOutlines (files.zip outlines) = .error ⟨f.path, fault⟩ := by
  induction files generalizing outlines i with
  | nil => simp at hf
  | cons f' fs ih =>
    cases outlines with
    | nil => simp at ho
    | cons o' os =>
      rw [List.zip_cons_cons, allOutlines]
      cases i with
      | zero =>
        simp only [List.getElem?_cons_zero, Option.some.injEq] at hf ho
        rw [hf, ho, hfault]
      | succ i =>
        obtain ⟨text, htext⟩ := hfirst 0 (Nat.succ_pos i) o' rfl
        have hrest := ih (by simpa using hf) (by simpa using ho) fun j hj o'' ho'' =>
          hfirst (j + 1) (Nat.succ_lt_succ hj) o'' (by simpa using ho'')
        rw [htext, hrest]
        rfl

/-- **A run lists every source file once, and writes all outlines or none.** The files that are
outlined, one after the other, are the files named `….java` at all addresses, in the order of their
addresses. If all have outlines, these are written in that order, each followed by the end of a line.
If not, nothing is written, and the first file without one is reported. -/
theorem run_lists_sources (args : List (List Char)) (directory : List Char) (methodsOnly : Bool)
    (hargs : CommandLine.parse args = .ok (.outline directory methodsOnly)) (entries : List Entry) :
    ∃ (files : List Located) (outlines : List FileOutline),
      files.Pairwise (fun f g => Precedes f.address g.address) ∧
      (∀ f, f ∈ files ↔ fileAt? entries f.address = some (f.names, f.contents) ∧
        ∃ stem, f.names.getLast? = some (stem ++ ".java".toList)) ∧
      outlines = outlineFiles [] (files.map (Located.source directory methodsOnly)) ∧
      (∀ texts : List (List Char), outlines.map (·.result) = texts.map .ok →
        (run args entries).output = texts.flatMap (· ++ ['\n']) ∧
          (run args entries).complaint = [] ∧ (run args entries).status = 0) ∧
      ∀ (i : Nat) (f : Located) (o : FileOutline) (fault : FileFault),
        files[i]? = some f → outlines[i]? = some o → o.result = .error fault →
        (∀ j < i, ∀ o', outlines[j]? = some o' → ∃ text, o'.result = .ok text) →
        (run args entries).output = [] ∧
          (run args entries).complaint = fault.message (f.path directory) ++ ['\n'] ∧
          (run args entries).status = 1 := by
  have hsources : (sources directory entries).map
      (fun f => (⟨f.path, f.contents, methodsOnly⟩ : SourceFile)) =
      (located entries).map (Located.source directory methodsOnly) := by
    rw [sources_eq, List.map_map]
    rfl
  have hdirectory : outlineDirectory methodsOnly directory entries =
      (allOutlines (((located entries).map (Located.found directory)).zip (outlineFiles []
        ((located entries).map (Located.source directory methodsOnly))))).map
          fun texts => texts.flatMap (· ++ ['\n']) := by
    rw [outlineDirectory, hsources, sources_eq]
  refine ⟨located entries, _, pairwise_located entries, fun f => mem_located, rfl, ?_, ?_⟩
  · intro texts htexts
    have hall : allOutlines (((located entries).map (Located.found directory)).zip (outlineFiles []
        ((located entries).map (Located.source directory methodsOnly)))) = .ok texts :=
      allOutlines_of_ok (by simp) htexts
    have hrun : run args entries = .outlined (texts.flatMap (· ++ ['\n'])) := by
      rw [run, hargs]
      simp only [hdirectory, hall]
      rfl
    rw [hrun]
    exact ⟨rfl, rfl, rfl⟩
  · intro i f o fault hf ho hfault hfirst
    have hrun : run args entries = .failed ⟨f.path directory, fault⟩ := by
      have hfound : ((located entries).map (Located.found directory))[i]? =
          some (f.found directory) := by
        rw [List.getElem?_map, hf]
        rfl
      rw [run, hargs]
      simp only [hdirectory, allOutlines_of_error hfound ho hfault hfirst]
      rfl
    rw [hrun]
    exact ⟨rfl, rfl, rfl⟩

/-- Of a directory that holds a directory first and then a file, a source file in the inner directory
is listed, and a file of another name beside it is not. -/
theorem run_lists_source_below :
    CommandLine.parse ["src".toList] = .ok (.outline "src".toList false) ∧
      ∃ files : List Located, files.Pairwise (fun f g => Precedes f.address g.address) ∧
        ⟨[0, 1], ["p".toList, "B.java".toList], none⟩ ∈ files ∧
        ⟨[1], ["A.java".toList], none⟩ ∈ files ∧
        ∀ f ∈ files, f.address ≠ [0, 0] := by
  have hargs : CommandLine.parse ["src".toList] = .ok (.outline "src".toList false) := rfl
  refine ⟨hargs, ?_⟩
  obtain ⟨files, -, hsorted, hmem, -⟩ := run_lists_sources _ _ _ hargs
    [.directory "p".toList [.file "B.JAVA".toList none, .file "B.java".toList none],
      .file "A.java".toList none]
  refine ⟨files, hsorted, (hmem _).2 ⟨by decide, "B".toList, by decide⟩,
    (hmem _).2 ⟨by decide, "A".toList, by decide⟩, ?_⟩
  rintro ⟨address, names, contents⟩ hf rfl
  obtain ⟨hfile, stem, hstem⟩ := (hmem _).1 hf
  obtain ⟨rfl, -⟩ : ["p".toList, "B.JAVA".toList] = names ∧ none = contents := by
    simpa [fileAt?] using hfile
  have hsuffix : ".java".toList <:+ "B.JAVA".toList := ⟨stem, by simpa using hstem.symm⟩
  exact absurd hsuffix (by decide)

end JavaOutline

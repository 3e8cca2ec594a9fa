import JavaOutline.Proofs.Outline.Packages
import JavaOutline.Proofs.Parser.Indices

/-!
# Which file announces a package

Files are outlined one after the other, and packages that one file announces are known to the next.
Apart from its heading the outline of a file does not depend on the others (`outlineFiles_results`),
and a package stands in the heading of the first file that declares it
(`SourceFile.headings_eq_line_iff`). So every new package is announced once if all files have
outlines, in whatever order they are read (`packages_matter_for_headings_only`). But the heading of a
file that has no outline is lost, and its package counts as announced nevertheless
(`announced_by_first_file`).
-/

namespace JavaOutline

namespace SourceFile

/-- The name of the package that the file declares, if it declares one. -/
def package? (f : SourceFile) : Option (List Char) := declaredPackage? f.contents

/-- The outline of the file when its own package has been announced before. -/
def body (f : SourceFile) : Except FileFault (List Char) :=
  (outlineFile f.methodsOnly f.package?.toList f.name f.contents).result

/-- The headings of files that are outlined one after the other. -/
def headings : List (List Char) → List SourceFile → List (List Char)
  | _, [] => []
  | packages, f :: fs =>
    Package.heading packages f.package? :: headings (Package.after packages f.package?) fs

/-- The outline of a file is its body behind its heading. -/
theorem outline_eq (f : SourceFile) (packages : List (List Char)) :
    outlineFile f.methodsOnly packages f.name f.contents =
      ⟨f.body.map (Package.heading packages f.package? ++ ·),
        Package.after packages f.package?⟩ := by
  obtain ⟨outline, h⟩ := outlineFile_behind f.methodsOnly f.name f.contents
  have hbody : f.body = outline := by
    have hheading : Package.heading f.package?.toList (declaredPackage? f.contents) = [] := by
      rw [package?]
      cases declaredPackage? f.contents <;> simp [Package.heading]
    rw [body, h, hheading]
    cases outline <;> rfl
  rw [hbody]
  exact h packages

end SourceFile

namespace Package

theorem line_ne_nil (p : List Char) : line p ≠ [] :=
  List.append_ne_nil_of_right_ne_nil _ (List.cons_ne_nil _ _)

theorem line_inj {p q : List Char} : line p = line q ↔ p = q := by
  unfold line
  rw [List.append_left_inj, List.append_right_inj]

variable {packages : List (List Char)} {p : List Char} {package? : Option (List Char)}

theorem heading_eq_line : heading packages package? = line p ↔ package? = some p ∧ p ∉ packages := by
  cases package? with
  | none => simp [heading, (line_ne_nil p).symm]
  | some q =>
    by_cases hq : q ∈ packages
    · simp only [heading, if_pos hq, (line_ne_nil p).symm, false_iff, Option.some.injEq, not_and,
        not_not]
      rintro rfl
      exact hq
    · simp only [heading, if_neg hq, line_inj, Option.some.injEq]
      constructor
      · rintro rfl
        exact ⟨rfl, hq⟩
      · exact And.left

theorem mem_after : p ∈ after packages package? ↔ p ∈ packages ∨ package? = some p := by
  cases package? with
  | none => simp [after]
  | some q =>
    by_cases hq : q ∈ packages
    · simp only [after, if_pos hq, Option.some.injEq]
      constructor
      · exact .inl
      · rintro (h | rfl)
        · exact h
        · exact hq
    · simp [after, if_neg hq, eq_comm]

end Package

namespace SourceFile

variable {packages : List (List Char)} {files : List SourceFile} {p : List Char}

/-- The file with this number is the first one that declares the package. -/
def Declares (files : List SourceFile) (p : List Char) (i : Nat) : Prop :=
  (∃ f, files[i]? = some f ∧ f.package? = some p) ∧
    ∀ j < i, ∀ g, files[j]? = some g → g.package? ≠ some p

theorem declares_cons_zero {f : SourceFile} :
    Declares (f :: files) p 0 ↔ f.package? = some p := by
  simp [Declares]

theorem declares_cons_succ {f : SourceFile} {i : Nat} :
    Declares (f :: files) p (i + 1) ↔ f.package? ≠ some p ∧ Declares files p i := by
  constructor
  · rintro ⟨hi, hfirst⟩
    exact ⟨hfirst 0 (Nat.succ_pos i) f rfl, hi, fun j hj => hfirst (j + 1) (Nat.succ_lt_succ hj)⟩
  · rintro ⟨hf, hi, hfirst⟩
    refine ⟨hi, fun j hj => ?_⟩
    cases j with
    | zero => simpa using hf
    | succ j => exact hfirst j (Nat.lt_of_succ_lt_succ hj)

/-- A new package is announced by the first file that declares it. -/
theorem headings_eq_line_iff {i : Nat} : (headings packages files)[i]? = some (Package.line p) ↔
    p ∉ packages ∧ Declares files p i := by
  induction files generalizing packages i with
  | nil => simp [headings, Declares]
  | cons f fs ih =>
    cases i with
    | zero =>
      rw [headings, List.getElem?_cons_zero, Option.some.injEq, Package.heading_eq_line,
        declares_cons_zero, and_comm]
    | succ i =>
      rw [headings, List.getElem?_cons_succ, ih, Package.mem_after, not_or, declares_cons_succ,
        and_assoc]

/-- There is one first file at most. -/
theorem Declares.unique {i j : Nat} (hi : Declares files p i) (hj : Declares files p j) : i = j := by
  obtain ⟨⟨f, hf, hfp⟩, hi⟩ := hi
  obtain ⟨⟨g, hg, hgp⟩, hj⟩ := hj
  rcases Nat.lt_trichotomy i j with h | h | h
  · exact absurd hfp (hj i h f hf)
  · exact h
  · exact absurd hgp (hi j h g hg)

/-- If a file declares the package, there is a first one. -/
theorem exists_declares (h : ∃ f ∈ files, f.package? = some p) : ∃ i, Declares files p i := by
  induction files with
  | nil => simp at h
  | cons f fs ih =>
    by_cases hf : f.package? = some p
    · exact ⟨0, declares_cons_zero.2 hf⟩
    · obtain ⟨g, hg, hgp⟩ := h
      have hg : g ∈ fs := (List.mem_cons.1 hg).resolve_left fun h => hf (h ▸ hgp)
      obtain ⟨i, hi⟩ := ih ⟨g, hg, hgp⟩
      exact ⟨i + 1, declares_cons_succ.2 ⟨hf, hi⟩⟩

end SourceFile

/-- The packages that have been announced after all files. -/
def packagesAfter (packages : List (List Char)) (files : List SourceFile) : List (List Char) :=
  ((outlineFiles packages files).getLast?.map (·.packages)).getD packages

theorem packagesAfter_cons (packages : List (List Char)) (f : SourceFile) (fs : List SourceFile) :
    packagesAfter packages (f :: fs) = packagesAfter (Package.after packages f.package?) fs := by
  rw [packagesAfter, outlineFiles, f.outline_eq, packagesAfter, List.getLast?_cons]
  cases (outlineFiles (Package.after packages f.package?) fs).getLast? <;> rfl

/-- The packages after all files are those before them and those that the files declare. -/
theorem mem_packagesAfter {packages : List (List Char)} {files : List SourceFile} {p : List Char} :
    p ∈ packagesAfter packages files ↔ p ∈ packages ∨ ∃ f ∈ files, f.package? = some p := by
  induction files generalizing packages with
  | nil => simp [packagesAfter, outlineFiles]
  | cons f fs ih =>
    rw [packagesAfter_cons, ih, Package.mem_after, or_assoc]
    simp

/-- The outline of each file is its body behind its heading. -/
theorem getElem?_outlineFiles (packages : List (List Char)) {files : List SourceFile} {i : Nat}
    {f : SourceFile} (hf : files[i]? = some f) :
    ∃ o heading, (outlineFiles packages files)[i]? = some o ∧
      (SourceFile.headings packages files)[i]? = some heading ∧
      o.result = f.body.map (heading ++ ·) := by
  induction files generalizing packages i with
  | nil => simp at hf
  | cons g fs ih =>
    cases i with
    | zero =>
      obtain rfl : g = f := by simpa using hf
      refine ⟨_, _, rfl, rfl, ?_⟩
      rw [g.outline_eq]
    | succ i =>
      rw [outlineFiles, SourceFile.headings, g.outline_eq]
      exact ih _ hf

theorem exists_of_isOk {ε α : Type} {x : Except ε α} (h : x.isOk = true) : ∃ a, x = .ok a := by
  cases x with
  | error e => cases h
  | ok a => exact ⟨a, rfl⟩

/-- A file with this text in which every character is one byte. -/
def asciiFile (name text : String) : SourceFile :=
  ⟨name.toList, some (text.toList.map (·.toNat.toUInt8)), false⟩

namespace SourceFile

variable {f : SourceFile} {bytes : List UInt8} {source : List Char}

/-- The package of a file whose contents are a text. -/
theorem package?_of_decode (hf : f.contents = some bytes) (h : Utf8.decode bytes = .ok source) :
    f.package? = (analyse .compilationUnit 0 source).tree.package? := by
  rw [package?, declaredPackage?, hf, Option.bind_some, h]

/-- The outline of a file whose contents are a text fails where the walk through it does. -/
theorem isOk_outlineFile (packages : List (List Char)) (hf : f.contents = some bytes)
    (h : Utf8.decode bytes = .ok source) :
    (outlineFile f.methodsOnly packages f.name f.contents).result.isOk =
      (outlineSource f.methodsOnly packages source).2.isNone := by
  rw [outlineFile.eq_def, hf]
  simp only [h]
  rcases outlineSource f.methodsOnly packages source with ⟨o, _ | question⟩ <;> rfl

end SourceFile

/-- A file with a package and nothing else. -/
def packageFile : SourceFile := asciiFile "A.java" "package a;"

/-- The outline of the file with this number is returned, and it announces the package. -/
def AnnouncedIn (packages : List (List Char)) (files : List SourceFile) (p : List Char) (i : Nat) :
    Prop :=
  ∃ f o text, files[i]? = some f ∧ (outlineFiles packages files)[i]? = some o ∧
    f.body = .ok text ∧ o.result = .ok (Package.line p ++ text)

theorem announcedIn_iff {packages : List (List Char)} {files : List SourceFile} {p : List Char}
    {i : Nat} : AnnouncedIn packages files p i ↔ p ∉ packages ∧ SourceFile.Declares files p i ∧
      ∃ f text, files[i]? = some f ∧ f.body = .ok text := by
  constructor
  · rintro ⟨f, o, text, hf, ho, hbody, hresult⟩
    obtain ⟨o', heading, ho', hheading, hresult'⟩ := getElem?_outlineFiles packages hf
    obtain rfl : o' = o := Option.some.inj (ho'.symm.trans ho)
    have hline : heading = Package.line p := by
      rw [hresult', hbody] at hresult
      exact List.append_cancel_right (Except.ok.inj hresult)
    obtain ⟨hp, hdeclares⟩ := SourceFile.headings_eq_line_iff.1 (hline ▸ hheading)
    exact ⟨hp, hdeclares, f, text, hf, hbody⟩
  · rintro ⟨hp, hdeclares, f, text, hf, hbody⟩
    obtain ⟨o, heading, ho, hheading, hresult⟩ := getElem?_outlineFiles packages hf
    obtain rfl : heading = Package.line p := Option.some.inj
      (hheading.symm.trans (SourceFile.headings_eq_line_iff.2 ⟨hp, hdeclares⟩))
    exact ⟨f, o, text, hf, ho, hbody, by rw [hresult, hbody]; rfl⟩

/-- **The first file that declares a package decides whether it is announced.** A package that is
known after all files and was not before is declared by some file. If the first such file has an
outline, the package is announced in exactly one of the outlines; if it has none, in none of them,
although other files may declare the package too. -/
theorem announced_by_first_file (packages : List (List Char)) (files : List SourceFile)
    (p : List Char) (hold : p ∉ packages) (hnew : p ∈ packagesAfter packages files) :
    ∃ (i : Nat) (f : SourceFile) (o : FileOutline),
      files[i]? = some f ∧ (outlineFiles packages files)[i]? = some o ∧
      f.package? = some p ∧ (∀ j < i, ∀ g, files[j]? = some g → g.package? ≠ some p) ∧
      (∀ text, o.result = .ok text → ∃! j, AnnouncedIn packages files p j) ∧
      ∀ fault, o.result = .error fault → ∀ j, ¬AnnouncedIn packages files p j := by
  obtain ⟨i, hi⟩ := SourceFile.exists_declares ((mem_packagesAfter.1 hnew).resolve_left hold)
  obtain ⟨f, hf, hfp⟩ := hi.1
  obtain ⟨o, heading, ho, -, hresult⟩ := getElem?_outlineFiles packages hf
  refine ⟨i, f, o, hf, ho, hfp, hi.2, ?_, ?_⟩
  · intro text htext
    cases hbody : f.body with
    | error fault =>
      rw [hresult, hbody] at htext
      cases htext
    | ok body =>
      refine ⟨i, announcedIn_iff.2 ⟨hold, hi, f, body, hf, hbody⟩, fun j hj => ?_⟩
      exact (announcedIn_iff.1 hj).2.1.unique hi
  · intro fault hfault j hj
    obtain ⟨-, hdeclares, g, text, hg, hbody⟩ := announcedIn_iff.1 hj
    obtain rfl := hdeclares.unique hi
    obtain rfl : f = g := Option.some.inj (hf.symm.trans hg)
    rw [hresult, hbody] at hfault
    cases hfault

/-- A file with a package and a class that has no superclass behind its `extends`. -/
def faultyFile : SourceFile := asciiFile "B.java" "package a;class B))extends"

/-- The package of the first file is known afterwards, but no outline announces it, although the
second file declares it too. -/
theorem not_announced_behind_faultyFile :
    "a".toList ∉ ([] : List (List Char)) ∧
      "a".toList ∈ packagesAfter [] [faultyFile, packageFile] ∧
      ∀ j, ¬AnnouncedIn [] [faultyFile, packageFile] "a".toList j := by
  have hfaulty : faultyFile.package? = some "a".toList ∧
      (outlineFile faultyFile.methodsOnly [] faultyFile.name faultyFile.contents).result.isOk =
        false := by
    have hdecode : Utf8.decode ("package a;class B))extends".toList.map (·.toNat.toUInt8)) =
        .ok "package a;class B))extends".toList := by decide +kernel
    rw [SourceFile.isOk_outlineFile _ rfl hdecode, SourceFile.package?_of_decode rfl hdecode,
      outlineSource, analyse_tree_eq_plain]
    decide +kernel
  have hnew : "a".toList ∈ packagesAfter [] [faultyFile, packageFile] :=
    mem_packagesAfter.2 (.inr ⟨faultyFile, List.mem_cons_self, hfaulty.1⟩)
  obtain ⟨i, f, o, hf, ho, -, hbefore, -, hnone⟩ :=
    announced_by_first_file [] [faultyFile, packageFile] _ List.not_mem_nil hnew
  obtain rfl : i = 0 := by
    cases i with
    | zero => rfl
    | succ i => exact absurd hfaulty.1 (hbefore 0 (Nat.succ_pos i) faultyFile rfl)
  have hfault : o.result.isOk = false := by
    rw [← Option.some.inj ho]
    exact hfaulty.2
  refine ⟨List.not_mem_nil, hnew, ?_⟩
  cases hresult : o.result with
  | error fault => exact hnone fault hresult
  | ok text =>
    rw [hresult] at hfault
    cases hfault

end JavaOutline

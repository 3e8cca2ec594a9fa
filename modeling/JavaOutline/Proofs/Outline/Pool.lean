import JavaOutline.Proofs.Outline.Announcements
import Mathlib.Data.List.TakeWhile

/-!
# Files that are outlined at the same time

Several workers outline files, each one file at a time, and share the packages that have been
announced. A worker that enters a package does not do so in one go: it asks whether the package is
known, writes its line if the answer is no, and only then has the package inserted. Between the
question and the insertion other workers may do what they like (`Pool.step`).

A walk asks once at most, so the outline of a file is the one that it has by itself with the packages
that were known when its question was answered (`Job.Sound`), whatever the other workers do
(`Pool.Sound.run`). Hence a package is announced by every file whose question comes before the first
insertion: by one file at least, and by two as soon as a second question comes before the insertion
that follows the first one (`announced_at_the_same_time`).
-/

namespace JavaOutline

/-- The package that is entered, if it has a name. -/
def Visit.packageName? : Visit Token → Option (List Char)
  | .enter .packageDeclaration children => (Tree.child? .qualifiedName children).map Tree.text
  | _ => none

/-- The walk through a file, if it can be read. -/
def SourceFile.visits (f : SourceFile) : Except FileFault (List (Visit Token)) :=
  match f.contents with
  | none => .error (.absent f.name)
  | some bytes =>
    match Utf8.decode bytes with
    | .error fault => .error (.notText fault)
    | .ok source => .ok (analyse .compilationUnit 0 source).tree.visits

namespace Outline

/-- What is returned at the end of a walk. -/
def ending : Outline × Option Question → Except FileFault (List Char)
  | (o, none) => .ok o.text
  | (_, some question) => .error (.missingChild question)

end Outline

/-! ## Workers and requests -/

/-- What a worker asks for on behalf of a file. -/
inductive Request where
  /-- Is the package known? -/
  | query (p : List Char)
  /-- From now on the package is known. -/
  | insertion (p : List Char)
  deriving DecidableEq, Repr, Inhabited

/-- The packages that are known after a request. -/
def Request.serve (packages : List (List Char)) : Request → List (List Char)
  | .query _ => packages
  | .insertion p => Package.after packages (some p)

/-- The requests that have been served, each with the number of its file. -/
abbrev Log := List (Nat × Request)

/-- How far a file has come. -/
inductive JobState where
  | waiting
  /-- A worker walks through the tree of the file. -/
  | walking (worker : Nat) (o : Outline) (todo : List (Visit Token))
  /-- The line of a new package is written, but the package has not been inserted. -/
  | inserting (worker : Nat) (p : List Char) (o : Outline) (todo : List (Visit Token))
  | returned (result : Except FileFault (List Char))

/-- The worker that holds the file. -/
def JobState.worker? : JobState → Option Nat
  | .walking worker _ _ | .inserting worker _ _ _ => some worker
  | .waiting | .returned _ => none

structure Job where
  file : SourceFile
  state : JobState

/-- What can happen next to a file. -/
inductive Move where
  /-- A worker takes the file. -/
  | take (worker : Nat)
  /-- A visit for which no request is needed. -/
  | walk
  /-- The question for the package is answered. -/
  | query
  /-- The package is inserted. -/
  | insert
  /-- The outline is returned. -/
  | finish
  deriving DecidableEq, Repr, Inhabited

/-- The state of a job after a move, and the request that has been served with it. There are moves
that a job cannot make. -/
def Job.move (packages : List (List Char)) (j : Job) : Move → Option (JobState × Option Request)
  | .take worker =>
    match j.state with
    | .waiting =>
      match j.file.visits with
      | .ok visits => some (.walking worker (.empty []) visits, none)
      | .error fault => some (.returned (.error fault), none)
    | _ => none
  | .walk =>
    match j.state with
    | .walking worker o (v :: todo) =>
      match v.packageName?, o.step j.file.methodsOnly v with
      | none, .ok o' => some (.walking worker o' todo, none)
      | none, .error question => some (.returned (.error (.missingChild question)), none)
      | some _, _ => none
    | _ => none
  | .query =>
    match j.state with
    | .walking worker o (v :: todo) =>
      match v.packageName?, (o.behind [] packages).step j.file.methodsOnly v with
      | some p, .ok o' =>
        some (if packages.contains p then .walking worker o' todo else .inserting worker p o' todo,
          some (.query p))
      | _, _ => none
    | _ => none
  | .insert =>
    match j.state with
    | .inserting worker p o todo => some (.walking worker o todo, some (.insertion p))
    | _ => none
  | .finish =>
    match j.state with
    | .walking _ o [] => some (.returned (.ok o.text), none)
    | _ => none

/-- The files that are to be outlined, the packages that the workers share, and the requests so
far. -/
structure Pool where
  jobs : List Job
  packages : List (List Char)
  log : Log

namespace Pool

def start (packages : List (List Char)) (files : List SourceFile) : Pool :=
  ⟨files.map (⟨·, .waiting⟩), packages, []⟩

/-- Can the move be made in view of the other files? A worker holds one file at a time. -/
def allows (P : Pool) : Move → Bool
  | .take worker => P.jobs.all fun j => j.state.worker? ≠ some worker
  | _ => true

/-- The file with the given number makes a move. -/
def step (P : Pool) (i : Nat) (m : Move) : Option Pool :=
  if P.allows m then
    P.jobs[i]?.bind fun j => (j.move P.packages m).map fun (state, request?) =>
      ⟨P.jobs.set i ⟨j.file, state⟩, request?.elim P.packages (·.serve P.packages),
        P.log ++ request?.toList.map (i, ·)⟩
  else none

/-- Files make moves one after the other, in any order. -/
def run (P : Pool) : List (Nat × Move) → Option Pool
  | [] => some P
  | (i, m) :: moves => (P.step i m).bind (run · moves)

end Pool

/-! ## The packages that a file finds known -/

namespace Log

/-- The packages that are known after the requests. -/
def known (packages : List (List Char)) (log : Log) : List (List Char) :=
  log.foldl (fun packages m => m.2.serve packages) packages

/-- The requests of a file. -/
def own (log : Log) (i : Nat) : Log := log.filter fun m => m.1 = i

/-- The requests before the first one of a file. -/
def before (log : Log) (i : Nat) : Log := log.takeWhile fun m => m.1 ≠ i

variable {packages : List (List Char)} {log : Log} {i k : Nat} {m : Request} {p : List Char}

theorem known_concat : known packages (log ++ [(k, m)]) = m.serve (known packages log) := by
  simp [known]

theorem mem_known : p ∈ known packages log ↔ p ∈ packages ∨ ∃ k, (k, .insertion p) ∈ log := by
  induction log using List.reverseRecOn with
  | nil => simp [known]
  | append_singleton log km ih =>
    obtain ⟨k, m⟩ := km
    rw [known_concat]
    cases m with
    | query q => simp [Request.serve, ih]
    | insertion q =>
      rw [Request.serve, Package.mem_after, ih]
      simp only [List.mem_append, List.mem_singleton, Prod.mk.injEq, Request.insertion.injEq,
        Option.some.injEq]
      constructor
      · rintro ((h | ⟨j, h⟩) | rfl)
        · exact .inl h
        · exact .inr ⟨j, .inl h⟩
        · exact .inr ⟨k, .inr ⟨rfl, rfl⟩⟩
      · rintro (h | ⟨j, h | ⟨-, rfl⟩⟩)
        · exact .inl (.inl h)
        · exact .inl (.inr ⟨j, h⟩)
        · exact .inr rfl

theorem own_append (log log' : Log) : own (log ++ log') i = own log i ++ own log' i :=
  List.filter_append ..

theorem own_concat_self : own (log ++ [(i, m)]) i = own log i ++ [(i, m)] := by
  simp [own]

theorem own_concat_of_ne (h : k ≠ i) : own (log ++ [(k, m)]) i = own log i := by
  simp [own, h]

theorem mem_own {km : Nat × Request} : km ∈ own log i ↔ km ∈ log ∧ km.1 = i := by
  simp [own]

/-- Without a request of the file, all requests come before its first one. -/
theorem before_append (h : own log i = []) (log' : Log) :
    before (log ++ log') i = log ++ before log' i := by
  refine List.takeWhile_append_of_pos fun km hkm => ?_
  have hne : km.1 ≠ i := fun hi => by
    have hmem := mem_own.2 ⟨hkm, hi⟩
    rw [h] at hmem
    cases hmem
  simpa using hne

theorem before_concat_self (h : own log i = []) : before (log ++ [(i, m)]) i = log := by
  rw [before_append h]
  simp [before]

/-- Once a file has a request, later ones do not change what came before it. -/
theorem before_concat (h : own log i ≠ []) : before (log ++ [(k, m)]) i = before log i := by
  rw [before, List.takeWhile_append, if_neg]
  · rfl
  · intro hlength
    have hall : before log i = log := (List.takeWhile_prefix _).eq_of_length hlength
    refine h (List.filter_eq_nil_iff.2 fun km hkm => ?_)
    simpa using List.takeWhile_eq_self_iff.1 hall km hkm

end Log

/-! ## What a walk asks -/

/-- The walk that is left enters a package of this name, and no other one, after visits that do
nothing; or it enters no package at all. -/
def PackageAhead (methodsOnly : Bool) (todo : List (Visit Token)) : Option (List Char) → Prop
  | none => ∀ v ∈ todo, v.packageName? = none
  | some p => ∃ lead v rest, todo = lead ++ v :: rest ∧
      (∀ u ∈ lead, u.packageName? = none ∧ ∀ o : Outline, o.step methodsOnly u = .ok o) ∧
      v.packageName? = some p ∧ ∀ u ∈ rest, u.packageName? = none

namespace PackageAhead

variable {methodsOnly : Bool} {v : Visit Token} {lead todo : List (Visit Token)}
  {p : List Char} {p? : Option (List Char)}

theorem of_visit (h : ∀ u ∈ todo, u.packageName? = none) :
    PackageAhead methodsOnly (v :: todo) v.packageName? := by
  cases hv : v.packageName? with
  | none => exact List.forall_mem_cons.2 ⟨hv, h⟩
  | some p => exact ⟨[], v, todo, rfl, by simp, hv, h⟩

theorem append (hlead : ∀ u ∈ lead, u.packageName? = none ∧
      ∀ o : Outline, o.step methodsOnly u = .ok o) (h : PackageAhead methodsOnly todo p?) :
    PackageAhead methodsOnly (lead ++ todo) p? := by
  cases p? with
  | none =>
    intro u hu
    rcases List.mem_append.1 hu with hu | hu
    · exact (hlead u hu).1
    · exact h u hu
  | some p =>
    obtain ⟨lead', v, rest, rfl, hlead', hv, hrest⟩ := h
    refine ⟨lead ++ lead', v, rest, by simp, fun u hu => ?_, hv, hrest⟩
    rcases List.mem_append.1 hu with hu | hu
    · exact hlead u hu
    · exact hlead' u hu

/-- A visit that does not ask does nothing if there is a package to come. -/
theorem of_cons (hv : v.packageName? = none) (h : PackageAhead methodsOnly (v :: todo) p?) :
    PackageAhead methodsOnly todo p? ∧
      (p? = none ∨ ∀ o : Outline, o.step methodsOnly v = .ok o) := by
  cases p? with
  | none => exact ⟨fun u hu => h u (List.mem_cons_of_mem v hu), .inl rfl⟩
  | some p =>
    obtain ⟨lead, u, rest, htodo, hlead, hu, hrest⟩ := h
    cases lead with
    | nil =>
      obtain ⟨rfl, -⟩ := List.cons.inj htodo
      rw [hv] at hu
      cases hu
    | cons w lead =>
      obtain ⟨rfl, rfl⟩ := List.cons.inj htodo
      obtain ⟨hw, hlead⟩ := List.forall_mem_cons.1 hlead
      exact ⟨⟨lead, u, rest, rfl, hlead, hu, hrest⟩, .inr hw.2⟩

/-- After the question there is no other one. -/
theorem of_ask (hv : v.packageName? = some p) (h : PackageAhead methodsOnly (v :: todo) p?) :
    p? = some p ∧ ∀ u ∈ todo, u.packageName? = none := by
  cases p? with
  | none =>
    rw [h v List.mem_cons_self] at hv
    cases hv
  | some q =>
    obtain ⟨lead, u, rest, htodo, hlead, hu, hrest⟩ := h
    cases lead with
    | nil =>
      obtain ⟨rfl, rfl⟩ := List.cons.inj htodo
      exact ⟨hu.symm.trans hv, hrest⟩
    | cons w lead =>
      obtain ⟨rfl, -⟩ := List.cons.inj htodo
      rw [(hlead v List.mem_cons_self).1] at hv
      cases hv

/-- At the end of the walk there is no package to come. -/
theorem eq_none_of_nil (h : PackageAhead methodsOnly [] p?) : p? = none := by
  cases p? with
  | none => rfl
  | some p =>
    obtain ⟨lead, v, rest, htodo, -⟩ := h
    cases lead <;> cases htodo

end PackageAhead

namespace Outline

variable {methodsOnly : Bool} {o : Outline} {v : Visit Token} {packages : List (List Char)}

/-- A visit that does not ask does the same whatever packages are known. -/
theorem step_of_packageName?_eq_none (hv : v.packageName? = none) :
    (o.behind [] packages).step methodsOnly v =
      (o.step methodsOnly v).map (behind [] packages) := by
  by_cases hpackage : ∃ cs, v = .enter .packageDeclaration cs
  · obtain ⟨cs, rfl⟩ := hpackage
    have hname : childText .qualifiedName cs = .error .text := by
      rw [childText, Option.map_eq_none_iff.1 hv]
    simp only [step, enterPackage, hname, bind, Except.bind]
    rfl
  · exact step_behind fun cs h => hpackage ⟨cs, h⟩

/-- A visit that asks does not fail. -/
theorem exists_step_of_packageName? {p : List Char} (hv : v.packageName? = some p) :
    ∃ o', o.step methodsOnly v = .ok o' := by
  cases v with
  | enter r children =>
    cases r
    case packageDeclaration =>
      obtain ⟨t, ht, -⟩ := Option.map_eq_some_iff.1 hv
      have hname : childText .qualifiedName children = .ok t.text := by rw [childText, ht]
      exact ⟨_, enterPackage_of_read hname⟩
    all_goals cases hv
  | leave | token | skipped | missing => cases hv

theorem run_cons_of_step {o' : Outline} (h : o.step methodsOnly v = .ok o')
    (vs : List (Visit Token)) : o.run methodsOnly (v :: vs) = o'.run methodsOnly vs := by
  rw [run, h]

theorem run_cons_of_error {q : Question} (h : o.step methodsOnly v = .error q)
    (vs : List (Visit Token)) : o.run methodsOnly (v :: vs) = (o, some q) := by
  rw [run, h]

end Outline

/-- Leaves and the root of a file do nothing. -/
theorem step_of_rule? {v : Visit Token} (h : v.rule? = none) (methodsOnly : Bool) :
    v.packageName? = none ∧ ∀ o : Outline, o.step methodsOnly v = .ok o := by
  cases v with
  | enter | leave => cases h
  | token | skipped | missing => exact ⟨rfl, fun o => rfl⟩

theorem packageName?_eq_none {v : Visit Token} (h : v.rule? ≠ some .packageDeclaration) :
    v.packageName? = none := by
  cases v with
  | enter r children =>
    cases r
    case packageDeclaration => exact absurd rfl h
    all_goals rfl
  | leave | token | skipped | missing => rfl

/-- A walk through a tree of the parser asks for the package of the tree. -/
theorem Tree.PackageFirst.packageAhead (methodsOnly : Bool) {ts : List (Tree Token)}
    (h : PackageFirst ts) : PackageAhead methodsOnly (node none .compilationUnit ts).visits
      (node none .compilationUnit ts).package? := by
  obtain ⟨before, package, after, rfl, hbefore, hpackage, hafter⟩ := h
  have hpackage? : (node none .compilationUnit (before ++ package ++ after)).package? =
      (node none .compilationUnit package).package? := by
    simp only [package?, children, child?_package hbefore hafter]
  have hquiet {us : List (Tree Token)} (hus : NoPackage us) :
      ∀ v ∈ visitsAll us, v.packageName? = none := fun v hv => packageName?_eq_none (hus v hv)
  have hlast : ∀ v ∈ visitsAll after ++ [Visit.leave .compilationUnit], v.packageName? = none := by
    simpa [or_imp, forall_and] using ⟨hquiet hafter, rfl⟩
  have hvisits : (node none .compilationUnit (before ++ package ++ after)).visits =
      (.enter .compilationUnit (before ++ package ++ after) :: visitsAll before) ++
        (visitsAll package ++ (visitsAll after ++ [.leave .compilationUnit])) := by
    simp [visits, visitsAll_append]
  have hlead : ∀ u ∈ Visit.enter .compilationUnit (before ++ package ++ after) ::
      visitsAll before, u.packageName? = none ∧ ∀ o : Outline, o.step methodsOnly u = .ok o := by
    refine List.forall_mem_cons.2 ⟨⟨rfl, fun o => rfl⟩, fun u hu => ?_⟩
    exact step_of_rule? (hbefore u hu) methodsOnly
  rw [hpackage?, hvisits]
  refine PackageAhead.append hlead ?_
  rcases hpackage with rfl | ⟨children, rfl, hchildren⟩
  · exact hlast
  · have hrest : ∀ v ∈ visitsAll children ++ Visit.leave .packageDeclaration ::
        (visitsAll after ++ [.leave .compilationUnit]), v.packageName? = none := by
      intro v hv
      rcases List.mem_append.1 hv with hv | hv
      · exact hquiet hchildren v hv
      · rcases List.mem_cons.1 hv with rfl | hv
        · rfl
        · exact hlast v hv
    have hsplit : visitsAll [node none .packageDeclaration children] ++
        (visitsAll after ++ [.leave .compilationUnit]) = .enter .packageDeclaration children ::
          (visitsAll children ++ .leave .packageDeclaration ::
            (visitsAll after ++ [.leave .compilationUnit])) := by
      simp [visits]
    rw [hsplit]
    exact PackageAhead.of_visit hrest

namespace SourceFile

variable {f : SourceFile} {vs : List (Visit Token)}

/-- A file that can be read has a text, and its walk is the one through the tree of the text. -/
theorem exists_of_visits (h : f.visits = .ok vs) :
    ∃ bytes source, f.contents = some bytes ∧ Utf8.decode bytes = .ok source ∧
      vs = (analyse .compilationUnit 0 source).tree.visits := by
  unfold visits at h
  split at h
  · cases h
  · rename_i bytes hbytes
    split at h
    · cases h
    · rename_i source hsource
      exact ⟨bytes, source, hbytes, hsource, (Except.ok.inj h).symm⟩

/-- The outline of a file that can be read is what its walk ends with. -/
theorem result_of_visits (h : f.visits = .ok vs) (packages : List (List Char)) :
    (outlineFile f.methodsOnly packages f.name f.contents).result =
      Outline.ending ((Outline.empty packages).run f.methodsOnly vs) := by
  obtain ⟨bytes, source, hbytes, hsource, rfl⟩ := exists_of_visits h
  have hrun : outlineSource f.methodsOnly packages source = (Outline.empty packages).run
      f.methodsOnly (analyse .compilationUnit 0 source).tree.visits := rfl
  rw [← hrun, hbytes, outlineFile]
  simp only [hsource]
  rcases outlineSource f.methodsOnly packages source with ⟨o, _ | q⟩ <;> rfl

/-- A file that cannot be read has no outline and no package. -/
theorem result_of_not_visits {fault : FileFault} (h : f.visits = .error fault) :
    f.package? = none ∧ ∀ packages,
      (outlineFile f.methodsOnly packages f.name f.contents).result = .error fault := by
  unfold visits at h
  unfold package? declaredPackage? outlineFile
  cases hcontents : f.contents with
  | none =>
    rw [hcontents] at h
    obtain rfl := Except.error.inj h
    exact ⟨rfl, fun packages => rfl⟩
  | some bytes =>
    rw [hcontents] at h
    simp only [Option.bind_some] at h ⊢
    cases hsource : Utf8.decode bytes with
    | error e =>
      rw [hsource] at h
      obtain rfl := Except.error.inj h
      exact ⟨rfl, fun packages => rfl⟩
    | ok source =>
      rw [hsource] at h
      cases h

/-- The walk through a file asks for the package of the file. -/
theorem packageAhead (h : f.visits = .ok vs) : PackageAhead f.methodsOnly vs f.package? := by
  obtain ⟨bytes, source, hbytes, hsource, rfl⟩ := exists_of_visits h
  have hpackage : f.package? = (analyse .compilationUnit 0 source).tree.package? := by
    simp [package?, declaredPackage?, hbytes, hsource]
  obtain ⟨children, htree, hfirst⟩ := (TokenStream.ofSource source).parse_packageFirst 0
  have htree' : (analyse .compilationUnit 0 source).tree = .node none .compilationUnit
      (Tree.mapAll (TokenStream.ofSource source).get children) := by
    rw [analyse_tree, htree]
    rfl
  rw [hpackage, htree']
  exact hfirst.mapAll.packageAhead f.methodsOnly

end SourceFile

/-! ## Whatever the others do -/

namespace SourceFile

/-- What becomes of the file by itself with these packages. -/
def result (f : SourceFile) (packages : List (List Char)) : Except FileFault (List Char) :=
  (outlineFile f.methodsOnly packages f.name f.contents).result

/-- The file has asked for its package, and `own` is what it has requested since then. -/
def Asked (f : SourceFile) (log : Log) (i : Nat) (p : List Char) (own : Log) : Prop :=
  f.package? = some p ∧ log.own i = (i, .query p) :: own

/-- The file has asked for its package and waits for nothing. -/
def Served (f : SourceFile) (log : Log) (i : Nat) (p : List Char) : Prop :=
  f.Asked log i p [] ∨ f.Asked log i p [(i, .insertion p)]

end SourceFile

/-- A file asks for nothing before it meets its package, and once it has asked, its outline is going to
be the one that it has by itself with the packages that were known then. -/
def JobState.Sound (packages : List (List Char)) (log : Log) (i : Nat) (f : SourceFile) :
    JobState → Prop
  | .waiting => log.own i = []
  | .walking _ o todo =>
    (log.own i = [] ∧ PackageAhead f.methodsOnly todo f.package? ∧
      ∀ known, Outline.ending ((o.behind [] known).run f.methodsOnly todo) = f.result known) ∨
    ∃ p, f.Served log i p ∧ (∀ v ∈ todo, v.packageName? = none) ∧
      Outline.ending (o.run f.methodsOnly todo) = f.result (Log.known packages (log.before i))
  | .inserting _ p o todo =>
    f.Asked log i p [] ∧ (∀ v ∈ todo, v.packageName? = none) ∧
      Outline.ending (o.run f.methodsOnly todo) = f.result (Log.known packages (log.before i))
  | .returned r =>
    (log.own i = [] ∧ f.package? = none ∧ ∀ known, r = f.result known) ∨
    ∃ p, f.Served log i p ∧ r = f.result (Log.known packages (log.before i))

section
variable {packages : List (List Char)} {log : Log} {i k : Nat} {f : SourceFile} {p : List Char}

theorem SourceFile.Asked.own_ne_nil {own : Log} (h : f.Asked log i p own) : log.own i ≠ [] :=
  h.2 ▸ List.cons_ne_nil _ _

theorem SourceFile.Served.own_ne_nil (h : f.Served log i p) : log.own i ≠ [] :=
  h.elim Asked.own_ne_nil Asked.own_ne_nil

theorem SourceFile.Served.package_eq (h : f.Served log i p) : f.package? = some p :=
  h.elim And.left And.left

theorem SourceFile.Served.query_mem (h : f.Served log i p) : (i, .query p) ∈ log := by
  suffices (i, .query p) ∈ log.own i from (Log.mem_own.1 this).1
  rcases h with ⟨-, h⟩ | ⟨-, h⟩ <;> simp [h]

/-- Requests of other files make no difference. -/
theorem JobState.Sound.concat_of_ne {state : JobState} (h : state.Sound packages log i f)
    (hk : k ≠ i) (r : Request) : state.Sound packages (log ++ [(k, r)]) i f := by
  have hown : (log ++ [(k, r)]).own i = log.own i := Log.own_concat_of_ne hk
  have hasked {p : List Char} {own : Log} (h : f.Asked log i p own) :
      f.Asked (log ++ [(k, r)]) i p own := ⟨h.1, hown.trans h.2⟩
  have hserved {p : List Char} (h : f.Served log i p) : f.Served (log ++ [(k, r)]) i p :=
    h.imp hasked hasked
  cases state with
  | waiting => exact hown.trans h
  | walking worker o todo =>
    rcases h with ⟨hnone, h⟩ | ⟨p, hp, h⟩
    · exact .inl ⟨hown.trans hnone, h⟩
    · exact .inr ⟨p, hserved hp, by rwa [Log.before_concat hp.own_ne_nil]⟩
  | inserting worker p o todo =>
    obtain ⟨hp, h⟩ := h
    exact ⟨hasked hp, by rwa [Log.before_concat hp.own_ne_nil]⟩
  | returned result =>
    rcases h with ⟨hnone, h⟩ | ⟨p, hp, h⟩
    · exact .inl ⟨hown.trans hnone, h⟩
    · exact .inr ⟨p, hserved hp, by rwa [Log.before_concat hp.own_ne_nil]⟩

end

namespace Job

variable {packages : List (List Char)} {log : Log} {i : Nat} {j : Job} {state : JobState}
  {request? : Option Request}

/-- A file that a worker begins with has its walk before it. -/
theorem sound_take {worker : Nat} (h : j.state.Sound packages log i j.file)
    (hmove : j.move (Log.known packages log) (.take worker) = some (state, request?)) :
    request? = none ∧ state.Sound packages log i j.file := by
  obtain ⟨f, state'⟩ := j
  cases state' with
  | walking | inserting | returned => cases hmove
  | waiting =>
    simp only [move] at hmove
    cases hvisits : f.visits with
    | ok visits =>
      rw [hvisits] at hmove
      cases hmove
      exact ⟨rfl, .inl ⟨h, SourceFile.packageAhead hvisits, fun known =>
        (SourceFile.result_of_visits hvisits known).symm⟩⟩
    | error fault =>
      rw [hvisits] at hmove
      cases hmove
      obtain ⟨hpackage, hresult⟩ := SourceFile.result_of_not_visits hvisits
      exact ⟨rfl, .inl ⟨h, hpackage, fun known => (hresult known).symm⟩⟩

/-- A visit that does not ask leads to the same end. -/
theorem sound_walk (h : j.state.Sound packages log i j.file)
    (hmove : j.move (Log.known packages log) .walk = some (state, request?)) :
    request? = none ∧ state.Sound packages log i j.file := by
  obtain ⟨f, state'⟩ := j
  cases state' with
  | waiting | inserting | returned => cases hmove
  | walking worker o todo =>
    cases todo with
    | nil => cases hmove
    | cons v todo =>
      simp only [move] at hmove
      cases hname : v.packageName? with
      | some p =>
        rw [hname] at hmove
        cases hmove
      | none =>
        rw [hname] at hmove
        cases hstep : o.step f.methodsOnly v with
        | ok o' =>
          rw [hstep] at hmove
          cases hmove
          refine ⟨rfl, ?_⟩
          rcases h with ⟨hown, hahead, hend⟩ | ⟨p, hp, hquiet, hend⟩
          · refine .inl ⟨hown, (hahead.of_cons hname).1, fun known => ?_⟩
            rw [← hend known, Outline.run_cons_of_step
              (by rw [Outline.step_of_packageName?_eq_none hname, hstep]; rfl)]
          · refine .inr ⟨p, hp, fun u hu => hquiet u (List.mem_cons_of_mem v hu), ?_⟩
            rw [← hend, Outline.run_cons_of_step hstep]
        | error q =>
          rw [hstep] at hmove
          cases hmove
          refine ⟨rfl, ?_⟩
          rcases h with ⟨hown, hahead, hend⟩ | ⟨p, hp, hquiet, hend⟩
          · refine .inl ⟨hown, ?_, fun known => ?_⟩
            · refine (hahead.of_cons hname).2.resolve_right fun hidle => ?_
              rw [hidle o] at hstep
              cases hstep
            · rw [← hend known, Outline.run_cons_of_error
                (by rw [Outline.step_of_packageName?_eq_none hname, hstep]; rfl)]
              rfl
          · refine .inr ⟨p, hp, ?_⟩
            rw [← hend, Outline.run_cons_of_error hstep]
            rfl

/-- The question of a file is answered with the packages that are known now. -/
theorem sound_query (h : j.state.Sound packages log i j.file)
    (hmove : j.move (Log.known packages log) .query = some (state, request?)) :
    ∃ p, request? = some (.query p) ∧
      state.Sound packages (log ++ [(i, .query p)]) i j.file := by
  obtain ⟨f, state'⟩ := j
  cases state' with
  | waiting | inserting | returned => cases hmove
  | walking worker o todo =>
    cases todo with
    | nil => cases hmove
    | cons v todo =>
      simp only [move] at hmove
      cases hname : v.packageName? with
      | none =>
        rw [hname] at hmove
        cases hmove
      | some p =>
        obtain ⟨o', hstep⟩ : ∃ o', (o.behind [] (Log.known packages log)).step f.methodsOnly v =
            .ok o' := Outline.exists_step_of_packageName? hname
        rw [hname, hstep] at hmove
        obtain ⟨rfl, rfl⟩ := Prod.mk.inj (Option.some.inj hmove)
        refine ⟨p, rfl, ?_⟩
        rcases h with ⟨hown, hahead, hend⟩ | ⟨q, hq, hquiet, hend⟩
        · obtain ⟨hpackage, hquiet⟩ := hahead.of_ask hname
          have hasked : f.Asked (log ++ [(i, .query p)]) i p [] := by
            refine ⟨hpackage, ?_⟩
            rw [Log.own_concat_self, hown]
            rfl
          have hend' : Outline.ending (o'.run f.methodsOnly todo) =
              f.result (Log.known packages (Log.before (log ++ [(i, .query p)]) i)) := by
            rw [Log.before_concat_self hown, ← hend, Outline.run_cons_of_step hstep]
          by_cases hp : p ∈ Log.known packages log
          · rw [if_pos (List.contains_iff_mem.2 hp)]
            exact .inr ⟨p, .inl hasked, hquiet, hend'⟩
          · rw [if_neg (mt List.contains_iff_mem.1 hp)]
            exact ⟨hasked, hquiet, hend'⟩
        · rw [hquiet v List.mem_cons_self] at hname
          cases hname

/-- A file goes on when its package has been inserted. -/
theorem sound_insert (h : j.state.Sound packages log i j.file)
    (hmove : j.move (Log.known packages log) .insert = some (state, request?)) :
    ∃ p, request? = some (.insertion p) ∧
      state.Sound packages (log ++ [(i, .insertion p)]) i j.file := by
  obtain ⟨f, state'⟩ := j
  cases state' with
  | waiting | walking | returned => cases hmove
  | inserting worker p o todo =>
    cases hmove
    obtain ⟨hasked, hquiet, hend⟩ := h
    refine ⟨p, rfl, .inr ⟨p, .inr ⟨hasked.1, ?_⟩, hquiet, ?_⟩⟩
    · rw [Log.own_concat_self, hasked.2]
      rfl
    · rw [hend, Log.before_concat hasked.own_ne_nil]

/-- At the end of a walk its outline is returned. -/
theorem sound_finish (h : j.state.Sound packages log i j.file)
    (hmove : j.move (Log.known packages log) .finish = some (state, request?)) :
    request? = none ∧ state.Sound packages log i j.file := by
  obtain ⟨f, state'⟩ := j
  cases state' with
  | waiting | inserting | returned => cases hmove
  | walking worker o todo =>
    cases todo with
    | cons v todo => cases hmove
    | nil =>
      cases hmove
      refine ⟨rfl, ?_⟩
      rcases h with ⟨hown, hahead, hend⟩ | ⟨p, hp, -, hend⟩
      · exact .inl ⟨hown, hahead.eq_none_of_nil, hend⟩
      · exact .inr ⟨p, hp, hend⟩

/-- Whatever a file does, it can be relied on afterwards. -/
theorem sound_move {m : Move} (h : j.state.Sound packages log i j.file)
    (hmove : j.move (Log.known packages log) m = some (state, request?)) :
    state.Sound packages (log ++ request?.toList.map (i, ·)) i j.file := by
  cases m with
  | take worker =>
    obtain ⟨rfl, h⟩ := sound_take h hmove
    simpa using h
  | walk =>
    obtain ⟨rfl, h⟩ := sound_walk h hmove
    simpa using h
  | query =>
    obtain ⟨p, rfl, h⟩ := sound_query h hmove
    exact h
  | insert =>
    obtain ⟨p, rfl, h⟩ := sound_insert h hmove
    exact h
  | finish =>
    obtain ⟨rfl, h⟩ := sound_finish h hmove
    simpa using h

end Job

namespace Pool

variable {packages : List (List Char)} {files : List SourceFile} {P P' : Pool} {i : Nat}
  {p : List Char}

/-- A move changes one file and serves its request. -/
theorem exists_of_step {m : Move} (h : P.step i m = some P') :
    ∃ j state request?, P.jobs[i]? = some j ∧ j.move P.packages m = some (state, request?) ∧
      P' = ⟨P.jobs.set i ⟨j.file, state⟩, request?.elim P.packages (·.serve P.packages),
        P.log ++ request?.toList.map (i, ·)⟩ := by
  unfold step at h
  split at h
  · obtain ⟨j, hj, h⟩ := Option.bind_eq_some_iff.1 h
    obtain ⟨⟨state, request?⟩, hmove, rfl⟩ := Option.map_eq_some_iff.1 h
    exact ⟨j, state, request?, hj, hmove, rfl⟩
  · cases h

/-- Every file can be relied on, and nothing but requests of files has been served. -/
structure Sound (packages : List (List Char)) (files : List SourceFile) (P : Pool) : Prop where
  files_eq : P.jobs.map Job.file = files
  packages_eq : P.packages = Log.known packages P.log
  sound : ∀ (i : Nat) (j : Job), P.jobs[i]? = some j → j.state.Sound packages P.log i j.file
  bounded : ∀ r ∈ P.log, r.1 < P.jobs.length

theorem sound_start : (start packages files).Sound packages files where
  files_eq := by simp [start, Function.comp_def]
  packages_eq := rfl
  sound := by
    intro i j hj
    rw [start, List.getElem?_map] at hj
    obtain ⟨f, -, rfl⟩ := Option.map_eq_some_iff.1 hj
    rfl
  bounded := by simp [start]

/-- What one move preserves. -/
theorem Sound.step {m : Move} (h : P.Sound packages files) (hstep : P.step i m = some P') :
    P'.Sound packages files := by
  obtain ⟨j, state, request?, hj, hmove, rfl⟩ := exists_of_step hstep
  obtain ⟨hi, rfl⟩ := List.getElem?_eq_some_iff.1 hj
  have hmoved := Job.sound_move (h.sound i _ hj) (h.packages_eq ▸ hmove)
  refine ⟨?_, ?_, ?_, ?_⟩
  · rw [← h.files_eq, List.map_set, ← List.getElem_map Job.file (h := by simpa using hi),
      List.set_getElem_self]
  · cases request? with
    | none => simpa using h.packages_eq
    | some r => rw [Option.elim_some, h.packages_eq]; exact Log.known_concat.symm
  · intro k j hk
    rw [List.getElem?_set] at hk
    split at hk
    · rename_i hik
      obtain rfl := hik
      obtain rfl := Option.some.inj hk
      exact hmoved
    · rename_i hik
      cases request? with
      | none => simpa using h.sound k j hk
      | some r => exact (h.sound k j hk).concat_of_ne hik r
  · cases request? with
    | none => simpa using h.bounded
    | some r =>
      intro km hkm
      rw [List.length_set]
      rcases List.mem_append.1 hkm with hkm | hkm
      · exact h.bounded km hkm
      · obtain rfl := List.mem_singleton.1 hkm
        exact hi

/-- What a run preserves. -/
theorem Sound.run {moves : List (Nat × Move)} (h : P.Sound packages files)
    (hrun : P.run moves = some P') : P'.Sound packages files := by
  induction moves generalizing P with
  | nil =>
    obtain rfl := Option.some.inj hrun
    exact h
  | cons im moves ih =>
    obtain ⟨Q, hstep, hrun⟩ := Option.bind_eq_some_iff.1 hrun
    exact ih (h.step hstep) hrun

/-! ## Who announces a package -/

theorem Sound.getElem?_files (h : P.Sound packages files) {j : Job} (hj : P.jobs[i]? = some j) :
    files[i]? = some j.file := by
  rw [← h.files_eq, List.getElem?_map, hj]
  rfl

/-- A file that makes requests asks for its package and then at most has it inserted. -/
theorem Sound.own_cases (h : P.Sound packages files) (hown : P.log.own i ≠ []) :
    ∃ f p, files[i]? = some f ∧ f.package? = some p ∧ (P.log.own i = [(i, .query p)] ∨
      P.log.own i = [(i, .query p), (i, .insertion p)]) := by
  obtain ⟨r, hr⟩ := List.exists_mem_of_ne_nil _ hown
  obtain ⟨hlog, rfl⟩ := Log.mem_own.1 hr
  obtain ⟨j, hj⟩ : ∃ j, P.jobs[r.1]? = some j := ⟨_, List.getElem?_eq_getElem (h.bounded r hlog)⟩
  have hserved : ∃ p, j.file.Served P.log r.1 p := by
    have hsound := h.sound r.1 j hj
    cases hstate : j.state with
    | waiting =>
      rw [hstate] at hsound
      exact absurd hsound hown
    | walking worker o todo =>
      rw [hstate] at hsound
      rcases hsound with ⟨hnone, -⟩ | ⟨p, hp, -⟩
      · exact absurd hnone hown
      · exact ⟨p, hp⟩
    | inserting worker p o todo =>
      rw [hstate] at hsound
      exact ⟨p, .inl hsound.1⟩
    | returned result =>
      rw [hstate] at hsound
      rcases hsound with ⟨hnone, -⟩ | ⟨p, hp, -⟩
      · exact absurd hnone hown
      · exact ⟨p, hp⟩
  obtain ⟨p, hp⟩ := hserved
  exact ⟨j.file, p, h.getElem?_files hj, hp.package_eq, hp.imp And.right And.right⟩

/-- The question of a file is its first request. -/
theorem Sound.of_query (h : P.Sound packages files) {a b : Log}
    (hlog : P.log = a ++ (i, .query p) :: b) :
    P.log.before i = a ∧ ∃ f, files[i]? = some f ∧ f.package? = some p := by
  have hown : P.log.own i = Log.own a i ++ (i, .query p) :: Log.own b i := by
    rw [hlog, Log.own_append]
    simp [Log.own]
  obtain ⟨f, q, hf, hq, hcases⟩ := h.own_cases (i := i) (by simp [hown])
  rw [hown] at hcases
  cases ha : Log.own a i with
  | nil =>
    obtain rfl : p = q := by
      rw [ha] at hcases
      rcases hcases with hcases | hcases <;> simpa using (List.cons.inj hcases).1
    refine ⟨?_, f, hf, hq⟩
    rw [hlog, Log.before_append ha]
    simp [Log.before]
  | cons r rs =>
    -- Behind the first request there is no question.
    have hsecond : (i, .query p) ∈ rs ++ (i, .query p) :: Log.own b i := by simp
    rw [ha] at hcases
    rcases hcases with hcases | hcases
    all_goals
      rw [List.cons_append] at hcases
      rw [(List.cons.inj hcases).2] at hsecond
      simp at hsecond

/-- A package is inserted only after it has been asked for. -/
theorem Sound.query_mem (h : P.Sound packages files) {a b : Log} (hlog : P.log = a ++ b)
    (hi : (i, .insertion p) ∈ a) : (i, .query p) ∈ a := by
  have hown : P.log.own i = Log.own a i ++ Log.own b i := by rw [hlog, Log.own_append]
  have hmem : (i, .insertion p) ∈ Log.own a i := Log.mem_own.2 ⟨hi, rfl⟩
  have hmem' : (i, .insertion p) ∈ P.log.own i := hown ▸ List.mem_append_left _ hmem
  obtain ⟨f, q, -, -, hcases⟩ := h.own_cases (List.ne_nil_of_mem hmem')
  obtain rfl : p = q := by
    rcases hcases with hcases | hcases
    · simp [hcases] at hmem'
    · simpa [hcases] using hmem'
  cases ha : Log.own a i with
  | nil => simp [ha] at hmem
  | cons r rs =>
    obtain rfl : r = (i, .query p) := by
      rw [hown, ha] at hcases
      exact hcases.elim (fun h => (List.cons.inj h).1) (fun h => (List.cons.inj h).1)
    exact (Log.mem_own.1 (ha ▸ List.mem_cons_self)).1

/-- The outline of a file is the one that it has by itself with the packages that were known when it
asked. -/
theorem Sound.returned (h : P.Sound packages files) {f : SourceFile}
    {r : Except FileFault (List Char)} (hj : P.jobs[i]? = some ⟨f, .returned r⟩) :
    r = f.body.map (Package.heading (Log.known packages (P.log.before i)) f.package? ++ ·) := by
  have hresult : r = f.result (Log.known packages (P.log.before i)) := by
    rcases h.sound i _ hj with ⟨-, -, h⟩ | ⟨p, -, h⟩
    · exact h _
    · exact h
  rw [hresult, SourceFile.result, f.outline_eq]

/-- All files have been returned with their outlines. -/
def Done (P : Pool) : Prop := ∀ j ∈ P.jobs, ∃ text, j.state = .returned (.ok text)

/-- The file with this number is returned with an outline that announces the package. -/
def Announces (P : Pool) (p : List Char) (i : Nat) : Prop :=
  ∃ f body, P.jobs[i]? = some ⟨f, .returned (.ok (Package.line p ++ body))⟩ ∧ f.body = .ok body

/-- The outline of each file is its body behind its heading. -/
theorem Sound.exists_returned (h : P.Sound packages files) (hdone : P.Done) {f : SourceFile}
    (hf : files[i]? = some f) : ∃ body, f.body = .ok body ∧ P.jobs[i]? = some ⟨f, .returned (.ok
      (Package.heading (Log.known packages (P.log.before i)) f.package? ++ body))⟩ := by
  rw [← h.files_eq, List.getElem?_map] at hf
  obtain ⟨⟨f', state⟩, hj, rfl⟩ := Option.map_eq_some_iff.1 hf
  obtain ⟨text, rfl⟩ := hdone _ (List.mem_of_getElem? hj)
  have hresult := h.returned hj
  cases hbody : f'.body with
  | error fault =>
    rw [hbody] at hresult
    cases hresult
  | ok body =>
    rw [hbody] at hresult
    obtain rfl := Except.ok.inj hresult
    exact ⟨body, rfl, hj⟩

/-- A package is announced by the files that declare it and ask before it is inserted. -/
theorem Sound.announces_iff (h : P.Sound packages files) (hdone : P.Done) :
    P.Announces p i ↔ p ∉ packages ∧ (∃ f, files[i]? = some f ∧ f.package? = some p) ∧
      ∀ k, (k, .insertion p) ∉ P.log.before i := by
  have hnew : p ∉ Log.known packages (P.log.before i) ↔
      p ∉ packages ∧ ∀ k, (k, .insertion p) ∉ P.log.before i := by
    rw [Log.mem_known, not_or, not_exists]
  constructor
  · rintro ⟨f, body, hj, hbody⟩
    have hresult := h.returned hj
    rw [hbody] at hresult
    have hheading := List.append_cancel_right (Except.ok.inj hresult)
    obtain ⟨hp, hknown⟩ := Package.heading_eq_line.1 hheading.symm
    obtain ⟨hold, hfirst⟩ := hnew.1 hknown
    exact ⟨hold, ⟨f, h.getElem?_files hj, hp⟩, hfirst⟩
  · rintro ⟨hold, ⟨f, hf, hp⟩, hfirst⟩
    obtain ⟨body, hbody, hj⟩ := h.exists_returned hdone hf
    rw [Package.heading_eq_line.2 ⟨hp, hnew.2 ⟨hold, hfirst⟩⟩] at hj
    exact ⟨f, body, hj, hbody⟩

/-- A file with a package has asked for it when its outline is returned. -/
theorem Sound.exists_query (h : P.Sound packages files) (hdone : P.Done) {f : SourceFile}
    (hf : files[i]? = some f) (hp : f.package? = some p) :
    ∃ b, P.log = P.log.before i ++ (i, .query p) :: b := by
  obtain ⟨body, -, hj⟩ := h.exists_returned hdone hf
  have hmem : (i, .query p) ∈ P.log := by
    rcases h.sound i _ hj with ⟨-, hnone, -⟩ | ⟨q, hq, -⟩
    · rw [hp] at hnone
      cases hnone
    · obtain rfl : q = p := Option.some.inj (hq.package_eq.symm.trans hp)
      exact hq.query_mem
  obtain ⟨a, b, hlog⟩ := List.append_of_mem hmem
  rw [(h.of_query hlog).1]
  exact ⟨b, hlog⟩

/-- The first file that asks for a new package announces it. -/
theorem Sound.exists_announces (h : P.Sound packages files) (hdone : P.Done) (hold : p ∉ packages)
    (hp : ∃ f ∈ files, f.package? = some p) : ∃ i, P.Announces p i := by
  obtain ⟨f, hf, hfp⟩ := hp
  obtain ⟨k, hk⟩ := List.mem_iff_getElem?.1 hf
  obtain ⟨b, hquery⟩ := h.exists_query hdone hk hfp
  have hfind : (P.log.find? fun r => r.2 = .query p).isSome := by
    rw [List.find?_isSome, hquery]
    exact ⟨(k, .query p), by simp, by simp⟩
  obtain ⟨⟨i, r⟩, hr⟩ := Option.isSome_iff_exists.1 hfind
  obtain ⟨hi, a, c, hlog, hfirst⟩ := List.find?_eq_some_iff_append.1 hr
  obtain rfl : r = .query p := by simpa using hi
  obtain ⟨hbefore, hi⟩ := h.of_query hlog
  refine ⟨i, (h.announces_iff hdone).2 ⟨hold, hi, fun k hk => ?_⟩⟩
  rw [hbefore] at hk
  simpa using hfirst _ (h.query_mem hlog hk)

/-- Two files announce a package if both ask for it before it is inserted. -/
theorem Sound.announces_two_iff (h : P.Sound packages files) (hdone : P.Done) :
    (∃ i j, i ≠ j ∧ P.Announces p i ∧ P.Announces p j) ↔ p ∉ packages ∧ ∃ a i b j c,
      P.log = a ++ (i, .query p) :: b ++ (j, .query p) :: c ∧
        ∀ k, (k, .insertion p) ∉ a ++ b := by
  simp only [h.announces_iff hdone]
  constructor
  · -- Of the two files, one has asked first.
    have hordered {i j : Nat} (hij : i ≠ j) {f g : SourceFile} (hf : files[i]? = some f)
        (hfp : f.package? = some p) (hg : files[j]? = some g) (hgp : g.package? = some p)
        (hj : ∀ k, (k, .insertion p) ∉ P.log.before j)
        (hearlier : P.log.before i <+: P.log.before j) : ∃ a i b j c,
          P.log = a ++ (i, .query p) :: b ++ (j, .query p) :: c ∧
            ∀ k, (k, .insertion p) ∉ a ++ b := by
      obtain ⟨b, hb⟩ := h.exists_query hdone hf hfp
      obtain ⟨c, hc⟩ := h.exists_query hdone hg hgp
      obtain ⟨d, hd⟩ := hearlier
      have hrest : (i, .query p) :: b = d ++ (j, .query p) :: c := by
        rw [← hd, List.append_assoc] at hc
        exact List.append_cancel_left (hb.symm.trans hc)
      cases d with
      | nil => exact absurd (by simpa using (List.cons.inj hrest).1) hij
      | cons r d =>
        obtain ⟨rfl, -⟩ := List.cons.inj hrest
        refine ⟨P.log.before i, i, d, j, c, by rwa [hd], fun k hk => hj k ?_⟩
        rw [← hd]
        rcases List.mem_append.1 hk with hk | hk
        · exact List.mem_append_left _ hk
        · exact List.mem_append_right _ (List.mem_cons_of_mem _ hk)
    rintro ⟨i, j, hij, ⟨hold, ⟨f, hf, hfp⟩, hi⟩, -, ⟨g, hg, hgp⟩, hj⟩
    refine ⟨hold, ?_⟩
    rcases List.prefix_or_prefix_of_prefix (List.takeWhile_prefix _ : P.log.before i <+: P.log)
      (List.takeWhile_prefix _ : P.log.before j <+: P.log) with hearlier | hearlier
    · exact hordered hij hf hfp hg hgp hj hearlier
    · exact hordered hij.symm hg hgp hf hfp hi hearlier
  · rintro ⟨hold, a, i, b, j, c, hlog, hfirst⟩
    have hlog' : P.log = a ++ (i, .query p) :: (b ++ (j, .query p) :: c) := by simpa using hlog
    obtain ⟨hi, hdeclared⟩ := h.of_query hlog'
    obtain ⟨hj, hdeclared'⟩ := h.of_query hlog
    refine ⟨i, j, ?_, ⟨hold, hdeclared, ?_⟩, hold, hdeclared', ?_⟩
    · rintro rfl
      rw [hi] at hj
      simpa using congrArg List.length hj
    · intro k hk
      rw [hi] at hk
      exact hfirst k (List.mem_append_left _ hk)
    · intro k hk
      rw [hj] at hk
      refine hfirst k ?_
      rcases List.mem_append.1 hk with hk | hk
      · exact List.mem_append_left _ hk
      · exact List.mem_append_right _ (by simpa using hk)

end Pool

namespace Package

/-- The line that announces the package is a line of the text. -/
def HasLine (p text : List Char) : Prop :=
  ∃ before after, text = before ++ line p ++ after ∧
    (before = [] ∨ before.getLast? = some '\n')

theorem getLast?_line (p : List Char) : (line p).getLast? = some '\n' := List.getLast?_concat

/-- The line of a package ends where the first line feed is. -/
theorem eq_line_of_append {p before after : List Char} (hp : '\n' ∉ p)
    (h : line p = before ++ after) (hbefore : before.getLast? = some '\n') :
    before = line p := by
  have hmem : '\n' ∈ before := List.mem_of_getLast? hbefore
  rcases List.append_eq_append_iff.1 h with ⟨d, hd, hafter⟩ | ⟨d, hd, hafter⟩
  · rcases List.cons_eq_append_iff.1 hafter with ⟨rfl, -⟩ | ⟨d', rfl, hd'⟩
    · refine absurd hmem ?_
      rw [hd, List.append_nil]
      simpa using hp
    · rw [hd, (List.append_eq_nil_iff.1 hd'.symm).1]
      rfl
  · refine absurd (List.mem_append_left d hmem) ?_
    rw [← hd]
    simpa using hp

/-- The lines of a text that begins with whole lines. -/
theorem hasLine_append {p text body : List Char} (hp : '\n' ∉ p)
    (htext : text = [] ∨ text.getLast? = some '\n') :
    HasLine p (text ++ body) ↔ HasLine p text ∨ HasLine p body := by
  constructor
  · rintro ⟨before, after, h, hbefore⟩
    rw [List.append_assoc] at h
    rcases List.append_eq_append_iff.1 h with ⟨d, rfl, hbody⟩ | ⟨d, rfl, hline⟩
    · refine .inr ⟨d, after, by simpa using hbody, ?_⟩
      rcases List.eq_nil_or_concat d with hd | ⟨d', c, rfl⟩
      · exact .inl hd
      · simpa using hbefore
    · rcases List.eq_nil_or_concat d with rfl | ⟨d', c, rfl⟩
      · exact .inr ⟨[], after, by simpa using hline.symm, .inl rfl⟩
      · have hlast : (d'.concat c).getLast? = some '\n' := by simpa using htext
        refine .inl ?_
        rcases List.append_eq_append_iff.1 hline with ⟨e, he, -⟩ | ⟨e, he, -⟩
        · exact ⟨before, e, by rw [he, List.append_assoc], hbefore⟩
        · exact ⟨before, [], by rw [eq_line_of_append hp he hlast, List.append_nil], hbefore⟩
  · rintro (⟨before, after, rfl, hbefore⟩ | ⟨before, after, rfl, hbefore⟩)
    · exact ⟨before, after ++ body, by simp, hbefore⟩
    · refine ⟨text ++ before, after, by simp, ?_⟩
      rcases hbefore with rfl | hbefore
      · simpa using htext
      · exact .inr (by simp [List.getLast?_append, hbefore])

/-- A heading is empty or the line of the package. -/
theorem heading_cases (packages : List (List Char)) (p? : Option (List Char)) :
    heading packages p? = [] ∨ ∃ p, p? = some p ∧ heading packages p? = line p := by
  cases p? with
  | none => exact .inl rfl
  | some p =>
    by_cases hp : p ∈ packages
    · exact .inl (if_pos hp)
    · exact .inr ⟨p, rfl, if_neg hp⟩

end Package

/-- **Which files announce a package when they are outlined at the same time.** In whatever way the
files are given to workers and whatever order the requests of the workers are served in, if all files
have outlines, then the outline of each file is its body, which depends on nothing else, behind a
heading: nothing or the line of its package. (So the line of a package is in an outline if it is in
the heading or, written by the file itself, in the body.) A new package is announced by just the files
that ask for it before it is first inserted. These are one file at least, and more than one exactly if
two questions for the package are served before the first insertion of it. -/
theorem announced_at_the_same_time (files : List SourceFile) (packages : List (List Char))
    (moves : List (Nat × Move)) (P : Pool)
    (hrun : (Pool.start packages files).run moves = some P) (hdone : P.Done) :
    (∀ (i : Nat) (f : SourceFile), files[i]? = some f → ∃ heading body, f.body = .ok body ∧
      P.jobs[i]? = some ⟨f, .returned (.ok (heading ++ body))⟩ ∧
      (heading = [] ∨ ∃ q, f.package? = some q ∧ heading = Package.line q) ∧
      ∀ p, '\n' ∉ p → (Package.HasLine p (heading ++ body) ↔
        Package.HasLine p heading ∨ Package.HasLine p body)) ∧
    ∀ p, (∀ i, P.Announces p i ↔ p ∉ packages ∧
        (∃ f, files[i]? = some f ∧ f.package? = some p) ∧
        ∀ k, (k, .insertion p) ∉ P.log.before i) ∧
      (p ∉ packages → (∃ f ∈ files, f.package? = some p) → ∃ i, P.Announces p i) ∧
      ((∃ i j, i ≠ j ∧ P.Announces p i ∧ P.Announces p j) ↔ p ∉ packages ∧ ∃ a i b j c,
        P.log = a ++ (i, .query p) :: b ++ (j, .query p) :: c ∧
          ∀ k, (k, .insertion p) ∉ a ++ b) := by
  have h : P.Sound packages files := Pool.sound_start.run hrun
  refine ⟨fun i f hf => ?_, fun p => ⟨fun i => h.announces_iff hdone,
    h.exists_announces hdone, h.announces_two_iff hdone⟩⟩
  obtain ⟨body, hbody, hj⟩ := h.exists_returned hdone hf
  have hheading := Package.heading_cases (Log.known packages (P.log.before i)) f.package?
  refine ⟨_, body, hbody, hj, hheading, fun p hp => Package.hasLine_append hp ?_⟩
  rcases hheading with hnil | ⟨q, -, hline⟩
  · exact .inl hnil
  · right
    rw [hline]
    exact Package.getLast?_line q

/-- Another file with the package of `packageFile`. -/
def siblingFile : SourceFile := asciiFile "B.java" "package a;"

/-- Two workers have taken a file each. Both ask for the package before one of them has it inserted,
and then they walk on to the end. -/
def simultaneousMoves : List (Nat × Move) :=
  [(0, .walk), (1, .walk), (0, .query), (1, .query), (0, .insert), (1, .insert)] ++
    List.replicate 9 (0, .walk) ++ List.replicate 9 (1, .walk) ++ [(0, .finish), (1, .finish)]

/-- Two workers have taken a file each and begin to walk. -/
def begunPool (f g : SourceFile) (vs ws : List (Visit Token)) : Pool :=
  ⟨[⟨f, .walking 0 (.empty []) vs⟩, ⟨g, .walking 1 (.empty []) ws⟩], [], []⟩

theorem run_begunPool {f g : SourceFile} {vs ws : List (Visit Token)} (hf : f.visits = .ok vs)
    (hg : g.visits = .ok ws) (moves : List (Nat × Move)) :
    (Pool.start [] [f, g]).run ((0, .take 0) :: (1, .take 1) :: moves) =
      (begunPool f g vs ws).run moves := by
  simp [Pool.run, Pool.step, Pool.start, Pool.allows, Job.move, JobState.worker?, hf, hg, begunPool]

/-- Is the outline of the file returned? -/
def JobState.isOutlined : JobState → Bool
  | .returned (.ok _) => true
  | _ => false

theorem JobState.exists_of_isOutlined {state : JobState} (h : state.isOutlined = true) :
    ∃ text, state = .returned (.ok text) := by
  cases state with
  | waiting | walking | inserting => cases h
  | returned result =>
    obtain ⟨text, rfl⟩ := exists_of_isOk (x := result) (by cases result <;> exact h)
    exact ⟨text, rfl⟩

/-- Two files of one package both announce it if both ask before it is inserted. -/
theorem announced_twice : ∃ P,
    (Pool.start [] [packageFile, siblingFile]).run
      ((0, .take 0) :: (1, .take 1) :: simultaneousMoves) = some P ∧ P.Done ∧
    P.log = [(0, .query "a".toList), (1, .query "a".toList), (0, .insertion "a".toList),
      (1, .insertion "a".toList)] ∧
    ∃ i j, i ≠ j ∧ P.Announces "a".toList i ∧ P.Announces "a".toList j := by
  have hdecode : Utf8.decode ("package a;".toList.map (·.toNat.toUInt8)) =
      .ok "package a;".toList := by
    decide +kernel
  have hvisits (name : String) : (asciiFile name "package a;").visits =
      .ok (analyse .compilationUnit 0 "package a;".toList).tree.visits := by
    simp only [SourceFile.visits, asciiFile, hdecode]
  have heval : ((begunPool packageFile siblingFile
      (analyse .compilationUnit 0 "package a;".toList).tree.visits
      (analyse .compilationUnit 0 "package a;".toList).tree.visits).run simultaneousMoves).any
        (fun P => P.jobs.all (fun j => j.state.isOutlined) && decide (P.log =
          [(0, .query "a".toList), (1, .query "a".toList), (0, .insertion "a".toList),
            (1, .insertion "a".toList)])) = true := by
    rw [analyse_tree_eq_plain]
    decide +kernel
  rw [Option.any_eq_true] at heval
  obtain ⟨P, hrun, hP⟩ := heval
  rw [Bool.and_eq_true, List.all_eq_true, decide_eq_true_eq] at hP
  rw [← run_begunPool (f := packageFile) (g := siblingFile) (hvisits "A.java")
    (hvisits "B.java")] at hrun
  have hdone : P.Done := fun j hj => JobState.exists_of_isOutlined (hP.1 j hj)
  obtain ⟨-, h⟩ := announced_at_the_same_time _ _ _ P hrun hdone
  refine ⟨P, hrun, hdone, hP.2, (h "a".toList).2.2.2 ⟨List.not_mem_nil, [], 0, [], 1, _, hP.2, ?_⟩⟩
  simp

end JavaOutline

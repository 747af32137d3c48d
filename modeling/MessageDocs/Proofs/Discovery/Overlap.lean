import MessageDocs.Proofs.Discovery.Anchors

/-! # Places that overlap

Files are looked for in several places, the sources of a project or the paths that are given, and
what is found in them is put one after the other. Each place lists a file at most once, and nothing
keeps another place from listing it again.

* `Discovery.timesListed_flatten`: a file is listed as often as there are places that list it.
* `Discovery.listed_once_per_place`: what this means for a project and for given paths.
-/

set_option autoImplicit false

namespace MessageDocs

/-- Locations of which neither lies in the other. -/
def Location.Apart (a b : Location) : Prop :=
  ¬a <+: b ∧ ¬b <+: a

instance (a b : Location) : Decidable (Location.Apart a b) :=
  inferInstanceAs (Decidable (_ ∧ _))

theorem Location.Apart.not_both {a b loc : Location} (h : Apart a b) (under : a <+: loc) :
    ¬b <+: loc := by
  intro under'
  rcases List.prefix_or_prefix_of_prefix under under' with inside | inside
  · exact h.1 inside
  · exact h.2 inside

namespace Discovery

open MessageDocs.Path

/-- Whether one of some files is at a location. -/
def Lists (d : Disk) (files : List SchemaFile) (loc : Location) : Prop :=
  ∃ f ∈ files, f.IsAt d loc

instance (d : Disk) (files : List SchemaFile) (loc : Location) : Decidable (Lists d files loc) :=
  inferInstanceAs (Decidable (∃ f ∈ files, f.IsAt d loc))

theorem timesListed_eq_zero_iff {d : Disk} {files : List SchemaFile} {loc : Location} :
    timesListed d files loc = 0 ↔ ¬Lists d files loc := by
  rw [timesListed, List.countP_eq_zero, Lists]
  simp

section Places

variable {α : Type} {d : Disk} {files : α → List SchemaFile} {start : α → Location}
  {places : List α}

/-- **A file is listed** as often as there are places that list it. -/
theorem timesListed_flatten (once : ∀ place ∈ places, ListsOnce d.cwd (start place) (files place))
    (loc : Location) :
    timesListed d (places.map files).flatten loc =
      places.countP fun place => decide (Lists d (files place) loc) := by
  induction places with
  | nil => rfl
  | cons place places ih =>
    obtain ⟨here, rest⟩ := List.forall_mem_cons.mp once
    rw [List.map_cons, List.flatten_cons, timesListed, List.countP_append, ← timesListed,
      ← timesListed, ih rest, List.countP_cons, Nat.add_comm]
    congr 1
    -- A place that lists the file lists it once.
    by_cases listed : Lists d (files place) loc
    · have some_time : timesListed d (files place) loc ≠ 0 :=
        fun none => timesListed_eq_zero_iff.mp none listed
      have one_time := here.timesListed_le_one loc
      rw [if_pos (decide_eq_true listed)]
      omega
    · rw [timesListed_eq_zero_iff.mpr listed, if_neg (by simpa using listed)]

/-- Places that lie apart do not list the same file. -/
theorem timesListed_le_one_of_apart
    (once : ∀ place ∈ places, ListsOnce d.cwd (start place) (files place))
    (apart : places.Pairwise fun a b => Location.Apart (start a) (start b)) (loc : Location) :
    timesListed d (places.map files).flatten loc ≤ 1 := by
  rw [timesListed_flatten once]
  induction places with
  | nil => exact Nat.zero_le 1
  | cons place places ih =>
    obtain ⟨here, rest⟩ := List.forall_mem_cons.mp once
    obtain ⟨others, apart⟩ := List.pairwise_cons.mp apart
    rw [List.countP_cons]
    by_cases listed : Lists d (files place) loc
    · have nowhere : (places.countP fun other => decide (Lists d (files other) loc)) = 0 := by
        rw [List.countP_eq_zero]
        intro other ho lists
        exact (others other ho).not_both (here.isPrefix_of_isAt listed)
          ((rest other ho).isPrefix_of_isAt (of_decide_eq_true lists))
      rw [nowhere, if_pos (decide_eq_true listed)]
    · rw [if_neg (by simpa using listed)]
      exact ih rest apart

end Places

/-- **Files are listed once per place.** In a project, and at given paths, a file is listed as
often as there are sources, or paths, at which it is found. So it is listed at most once when
these lie apart from each other. -/
theorem listed_once_per_place (d : Disk) (loc : Location) :
    (∀ root found, ofProject d root = .ok found →
      (timesListed d found.files loc = found.manifest.effectiveSources.countP
        fun source => decide (Lists d (filesIn d found source) loc)) ∧
      (found.manifest.effectiveSources.Pairwise (fun a b =>
          Location.Apart (sourceLocation d found a) (sourceLocation d found b)) →
        timesListed d found.files loc ≤ 1)) ∧
    (∀ paths found, ofPaths d paths = .ok found →
      (timesListed d found.files loc = paths.countP
        fun p => decide (Lists d (filesOf d found p) loc)) ∧
      (paths.Pairwise (fun a b => Location.Apart (givenLocation d a) (givenLocation d b)) →
        timesListed d found.files loc ≤ 1)) := by
  constructor
  · intro root found h
    obtain ⟨rfl, files⟩ := ofProject_eq_ok h
    have once : ∀ source ∈ found.manifest.effectiveSources,
        ListsOnce d.cwd (sourceLocation d found source) (filesIn d found source) :=
      fun source _ => Scan.directory_listsOnce d found.manifest _
    rw [files]
    exact ⟨timesListed_flatten once loc, fun apart => timesListed_le_one_of_apart once apart loc⟩
  · intro paths found h
    obtain ⟨files, project⟩ := ofPaths_eq_ok h
    have once : ∀ p ∈ paths, ListsOnce d.cwd (givenLocation d p) (filesOf d found p) :=
      fun p _ => filesAt_listsOnce (isAbsolute_given d p)
        fun _ => isAbsolute_of_mem_anchorsOf project
    rw [files]
    exact ⟨timesListed_flatten once loc, fun apart => timesListed_le_one_of_apart once apart loc⟩

/-! ## Two directories -/

/-- A disk with a manifest in its root, which is the working directory, and with a schema in each
of two directories. -/
def twoDirectories (manifest : Text) : Disk where
  tree := (do
    let t ← FileTree.empty.putFile [Manifest.fileName] (.text manifest)
    let t ← t.putDirectory ["msg"]
    let t ← t.putFile ["msg", "A.msg"] (.text "u8 x")
    let t ← t.putDirectory ["srv"]
    t.putFile ["srv", "B.msg"] (.text "u8 y")).getD FileTree.empty
  cwd := []

theorem exists_ok_of_any {e : Except Failure Discovery} {P : Discovery → Prop} [DecidablePred P]
    (h : e.toOption.any (fun found => decide (P found)) = true) :
    ∃ found, e = .ok found ∧ P found := by
  cases e with
  | error e => cases h
  | ok found => exact ⟨found, rfl, of_decide_eq_true h⟩

theorem separate_listed_once :
    (∃ found, ofProject (twoDirectories "sources: [msg, srv]") ⟨"."⟩ = .ok found ∧
      (found.manifest.effectiveSources.Pairwise fun a b =>
        Location.Apart (sourceLocation (twoDirectories "sources: [msg, srv]") found a)
          (sourceLocation (twoDirectories "sources: [msg, srv]") found b)) ∧
      timesListed (twoDirectories "sources: [msg, srv]") found.files ["msg", "A.msg"] ≤ 1) ∧
    ∃ found, ofPaths (twoDirectories "sources: [msg, srv]") [⟨"srv"⟩, ⟨"msg/A.msg"⟩] = .ok found ∧
      ([⟨"srv"⟩, ⟨"msg/A.msg"⟩].Pairwise fun a b =>
        Location.Apart (givenLocation (twoDirectories "sources: [msg, srv]") a)
          (givenLocation (twoDirectories "sources: [msg, srv]") b)) ∧
      timesListed (twoDirectories "sources: [msg, srv]") found.files ["msg", "A.msg"] ≤ 1 := by
  constructor
  · obtain ⟨found, h, apart⟩ : ∃ found,
        ofProject (twoDirectories "sources: [msg, srv]") ⟨"."⟩ = .ok found ∧
        found.manifest.effectiveSources.Pairwise fun a b =>
          Location.Apart (sourceLocation (twoDirectories "sources: [msg, srv]") found a)
            (sourceLocation (twoDirectories "sources: [msg, srv]") found b) :=
      exists_ok_of_any (by decide +kernel)
    exact ⟨found, h, apart, ((listed_once_per_place _ _).1 _ found h).2 apart⟩
  · obtain ⟨found, h, -⟩ : ∃ found, ofPaths (twoDirectories "sources: [msg, srv]")
        [⟨"srv"⟩, ⟨"msg/A.msg"⟩] = .ok found ∧ True :=
      exists_ok_of_any (by decide +kernel)
    have apart : [⟨"srv"⟩, ⟨"msg/A.msg"⟩].Pairwise fun a b =>
        Location.Apart (givenLocation (twoDirectories "sources: [msg, srv]") a)
          (givenLocation (twoDirectories "sources: [msg, srv]") b) := by
      decide +kernel
    exact ⟨found, h, apart, ((listed_once_per_place _ _).2 _ found h).2 apart⟩

/-- Two sources that are the same directory list its file twice, and so do a directory and a file
in it. -/
theorem overlapping_listed_twice :
    (∃ found, ofProject (twoDirectories "sources: [msg, ./msg/]") ⟨"."⟩ = .ok found ∧
      timesListed (twoDirectories "sources: [msg, ./msg/]") found.files ["msg", "A.msg"] = 2) ∧
    ∃ found, ofPaths (twoDirectories "sources: [msg, srv]") [⟨"msg"⟩, ⟨"msg/A.msg"⟩] = .ok found ∧
      timesListed (twoDirectories "sources: [msg, srv]") found.files ["msg", "A.msg"] = 2 :=
  ⟨exists_ok_of_any (by decide +kernel), exists_ok_of_any (by decide +kernel)⟩

end Discovery

end MessageDocs

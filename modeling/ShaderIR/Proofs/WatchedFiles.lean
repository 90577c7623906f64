import Mathlib.Data.List.TakeWhile
import ShaderIR.Proofs.FileRuns
import ShaderIR.Proofs.Routes

/-!
# Watched files

A watch looks at the directories of its files, and an event names an entry of one of them by the
directory, a slash and the entry. Such a name has the route of a file exactly when the file lies in
that directory under that entry, whatever detours its own name makes. So a change runs again the
files that it concerns, and no others.
-/

set_option autoImplicit false

namespace ShaderIR

namespace FileName

def entryChars (cs : List Char) : Part := (cs.reverse.takeWhile (· != '/')).reverse

def entry (name : String) : String := String.ofList (entryChars name.toList)

theorem folderChars_append_entryChars (cs : List Char) : folderChars cs ++ entryChars cs = cs := by
  rw [folderChars, entryChars, ← List.reverse_append, List.takeWhile_append_dropWhile,
    List.reverse_reverse]

theorem leading_folderChars (cs : List Char) : Leading (folderChars cs) := by
  unfold folderChars
  cases h : cs.reverse.dropWhile (· != '/') with
  | nil => exact .inl rfl
  | cons c rest =>
    have hc := List.head?_dropWhile_not (· != '/') cs.reverse
    rw [h] at hc
    have hslash : c = '/' := by simpa using hc
    exact .inr ⟨rest.reverse, by rw [List.reverse_cons, hslash]⟩

theorem folder_eq_iff {f g : String} :
    folder f = folder g ↔ routeOf (folderChars f.toList) = routeOf (folderChars g.toList) := by
  rw [folder, folder, String.ofList_inj, cleanChars_eq, cleanChars_eq, Route.text_injective.eq_iff]

theorem routeOf_file {f : String} (hf : Ordinary (entry f).toList) :
    routeOf f.toList = (routeOf (folderChars f.toList)).entry hf := by
  have hchars : f.toList = folderChars f.toList ++ (entry f).toList := by
    rw [entry, String.toList_ofList, folderChars_append_entryChars]
  rw [← routeOf_append (leading_folderChars f.toList), ← hchars]

/-- The directory of a file has been cleaned, and is cleaned again together with an entry. -/
theorem routeOf_in_folder (f : String) {e : String} (he : Ordinary e.toList) :
    routeOf (folder f ++ "/" ++ e).toList = (routeOf (folderChars f.toList)).entry he := by
  have hchars : (folder f ++ "/" ++ e).toList =
      ((routeOf (folderChars f.toList)).text ++ ['/']) ++ e.toList := by
    rw [String.toList_append, String.toList_append, folder, String.toList_ofList, cleanChars_eq]
    rfl
  rw [hchars, routeOf_append (.inr ⟨_, rfl⟩) he, routeOf_append_slash (Route.text_ne_nil _),
    Route.routeOf_text]

/-- An entry of a directory is taken for a file when the file lies there under this name. -/
theorem same_in_folder_iff {f g e : String} (hf : Ordinary (entry f).toList)
    (he : Ordinary e.toList) :
    same (folder g ++ "/" ++ e) f = true ↔ folder g = folder f ∧ e = entry f := by
  rw [same_iff, routeOf_in_folder g he, routeOf_file hf, Route.entry_inj, folder_eq_iff,
    String.toList_inj]

end FileName

namespace FileTree

open FileName

section

variable {rooted : Bool} {stack : List Part} {p : Part} {ps : List Part}

theorem step_skip (hp : p = [] ∨ p = here) (q : Place) : step q (String.ofList p) = q := by
  rcases hp with rfl | rfl
  · rfl
  · rfl

theorem step_ordinary (hp : Ordinary p) (q : Place) :
    step q (String.ofList p) = ⟨q.base, String.ofList p :: q.down⟩ := by
  have hskip : ¬(String.ofList p = String.ofList [] ∨ String.ofList p = String.ofList here) := by
    rw [String.ofList_inj, String.ofList_inj]
    exact not_or.mpr ⟨hp.ne_nil, hp.ne_here⟩
  have hup : ¬String.ofList p = String.ofList above := by
    rw [String.ofList_inj]
    exact hp.ne_above
  unfold step
  exact (if_neg hskip).trans (if_neg hup)

def start (rooted : Bool) : Place := ⟨if rooted then .root else .working, []⟩

def placeAt (rooted : Bool) (stack : List Part) : Place :=
  stack.foldr (fun p q => step q (String.ofList p)) (start rooted)

theorem placeAt_push (h : Reduced rooted stack) (hp : '/' ∉ p) :
    placeAt rooted (push rooted stack p) = step (placeAt rooted stack) (String.ofList p) := by
  have hpushes := h.pushes hp
  generalize push rooted stack p = next at hpushes
  cases hpushes with
  | skip hp => exact (step_skip hp _).symm
  | name _ => rfl
  | stay hroot =>
    subst hroot
    rfl
  | up _ _ => rfl
  | undo hq =>
    -- the walk goes down into the entry and comes back up
    rw [placeAt, placeAt, List.foldr_cons, step_ordinary hq]
    rfl

theorem placeAt_foldl (h : Reduced rooted stack) (hps : ∀ p ∈ ps, '/' ∉ p) :
    placeAt rooted (ps.foldl (push rooted) stack) =
      (ps.map String.ofList).foldl step (placeAt rooted stack) := by
  induction ps generalizing stack with
  | nil => rfl
  | cons p ps ih =>
    obtain ⟨hp, hps⟩ := List.forall_mem_cons.mp hps
    rw [List.foldl_cons, ih (h.push hp) hps, placeAt_push h hp]
    rfl

end

theorem walk_ok {t : FileTree} {p q : Place} {parts : List String}
    (h : t.walk p parts = .ok q) : q = parts.foldl step p := by
  fun_induction walk t p parts with
  | case1 p =>
    cases h
    rfl
  | case2 | case3 | case4 => cases h
  | case5 p part parts _ _ ih => exact ih h

def ending (r : Route) : Place := placeAt r.rooted r.stack

theorem ending_entry (r : Route) {p : Part} (hp : Ordinary p) :
    ending (r.entry hp) = ⟨(ending r).base, String.ofList p :: (ending r).down⟩ :=
  step_ordinary hp (ending r)

theorem place_ok {t : FileTree} {name : String} {p : Place} (h : t.place name = .ok p) :
    p = ending (routeOf name.toList) := by
  have hwalk : t.walk (start (isRooted name.toList)) (partsOf name) = .ok p := by
    -- a name is refused for three reasons before the walk begins
    unfold place at h
    iterate 3
      split at h
      · cases h
    exact h
  rw [walk_ok hwalk]
  exact (placeAt_foldl .nil fun _ hp => no_slash_of_mem_split hp).symm

/-- An entry of the directory of a file is at the place of the file only under its name. -/
theorem place_in_folder {t : FileTree} {f e : String} {p q : Place}
    (hf : Ordinary (entry f).toList) (he : Ordinary e.toList) (hp : t.place f = .ok p)
    (hq : t.place (folder f ++ "/" ++ e) = .ok q) : q = p ↔ e = entry f := by
  rw [place_ok hp, place_ok hq, routeOf_in_folder f he, routeOf_file hf, ending_entry, ending_entry]
  simp

end FileTree

namespace Command

open FileName

structure Change (files : List String) where
  folder : String
  entry : String
  text? : Option String
  watched : folder ∈ files.map FileName.folder
  ordinary : Ordinary entry.toList

namespace Change

variable {files : List String}

def event (c : Change files) : FileEvent :=
  match c.text? with
  | some text => .replaced (c.folder ++ "/" ++ c.entry) text
  | none => .removed (c.folder ++ "/" ++ c.entry)

def Concerns (c : Change files) (f : String) : Prop :=
  c.folder = FileName.folder f ∧ c.entry = FileName.entry f

instance (c : Change files) (f : String) : Decidable (c.Concerns f) :=
  inferInstanceAs (Decidable (_ ∧ _))

/-- These are the files to run after a change, in the order in which they were named: where it has
left a text, each file that it concerns. Names that end in a slash or in dots are left open. -/
structure Reruns (c : Change files) (runs : List String) : Prop where
  sublist : runs.Sublist files
  count (f : String) (hf : Ordinary (FileName.entry f).toList) :
    runs.count f = if c.text?.isSome ∧ c.Concerns f then files.count f else 0

end Change

def FileEvent.applied (t : FileTree) : FileEvent → FileTree
  | .replaced name text => (t.write name text).toOption.getD t
  | .removed name =>
    match t.place name with
    | .ok p => if p.base = .working then t.erase p.down.reverse else t
    | .error _ => t

inductive Follows (o : Options) (files : List String) :
    FileTree → List (Change files) → Output → FileTree → Prop
  | nil (t : FileTree) : Follows o files t [] {} t
  | cons {t mid last : FileTree} {c : Change files} {changes : List (Change files)}
      {runs : List String} {out outs : Output} (hruns : c.Reruns runs)
      (h : (processEach FileTree.files o runs).run (c.event.applied t) = (out, mid))
      (hrest : Follows o files mid changes outs last) :
      Follows o files t (c :: changes) (out.append outs) last

def FileEvent.due (files : List String) : FileEvent → List String
  | .replaced name _ => files.filter fun f => same name f
  | .removed _ => []

theorem onEvent_run (o : Options) (files : List String) (ev : FileEvent) (t : FileTree) :
    (onEvent o files ev).run t =
      (processEach FileTree.files o (ev.due files)).run (ev.applied t) := by
  cases ev with
  | replaced name text =>
    have hwrite : ((FileTree.files.write name text).run t).2 =
        (t.write name text).toOption.getD t := by
      rw [FileTree.files, StateT.run_bind, StateT.run_get, pure_bind]
      cases t.write name text <;> rfl
    rw [onEvent, StateT.run_bind]
    exact congrArg (onChange FileTree.files o files name).run hwrite
  | removed name =>
    rw [onEvent, StateT.run_bind, StateT.run_get, pure_bind, FileEvent.applied]
    cases t.place name <;> rfl

theorem Change.reruns_due {files : List String} (c : Change files) :
    c.Reruns (c.event.due files) := by
  obtain ⟨folder, e, text?, hwatched, he⟩ := c
  obtain ⟨g, _, rfl⟩ := List.mem_map.mp hwatched
  cases text? with
  | none => exact ⟨List.nil_sublist _, fun f _ => by simp [event, FileEvent.due]⟩
  | some text =>
    -- the directory of the change is that of some file, not always of the one looked at
    refine ⟨List.filter_sublist, fun f hf => ?_⟩
    have hsame := same_in_folder_iff (g := g) hf he
    by_cases h : FileName.folder g = FileName.folder f ∧ e = FileName.entry f
    · rw [if_pos ⟨rfl, h⟩]
      exact List.count_filter (hsame.mpr h)
    · rw [if_neg fun hc => h hc.2]
      refine List.count_eq_zero.mpr fun hmem => h (hsame.mp ?_)
      exact (List.mem_filter.mp hmem).2

theorem onEvents_follows (o : Options) {files : List String} (changes : List (Change files))
    (t : FileTree) :
    Follows o files t changes ((onEvents o files (changes.map Change.event)).run t).1
      ((onEvents o files (changes.map Change.event)).run t).2 := by
  induction changes generalizing t with
  | nil => exact .nil t
  | cons c changes ih => exact .cons c.reruns_due (onEvent_run o files c.event t).symm (ih _)

theorem unwatchable?_run {files : List String} {t : FileTree}
    (h : ∀ f ∈ files, ∃ x, t.find (folder f) = .ok x) :
    (unwatchable? FileTree.files files).run t = (none, t) := by
  induction files with
  | nil => rfl
  | cons f files ih =>
    obtain ⟨⟨x, hx⟩, hfiles⟩ := List.forall_mem_cons.mp h
    have hfind : (FileTree.files.find (folder f)).run t = (.ok (), t) := by
      change ((t.find (folder f)).map fun _ => (), t) = _
      rw [hx]
      rfl
    rw [unwatchable?, StateT.run_bind, hfind]
    exact ih hfiles

def detour : String := "x/..//./a"

def detourTree : FileTree := ⟨[(["x"], .folder)]⟩

def detourChanges : List (Change [detour]) :=
  [⟨".", "a", some "", by decide, by decide⟩, ⟨".", "b", some "", by decide, by decide⟩]

end Command

end ShaderIR

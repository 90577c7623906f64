import Mathlib.Logic.Relation
import ShaderIR.Command.Request
import ShaderIR.Proofs.Sequencing

/-!
# Runs over several files

With one job, the files are processed one after the other, each on what the earlier ones left, up to
the first that fails. What they printed is put together in their order, the message of the fault
comes last, and nothing is done for the files behind it.

The same holds when the files are handed to a group of tasks that share one slot and write to
buffers of their own, which are put together after all tasks have ended. A task that fails cancels
the group before it leaves the slot, and a task that finds the group cancelled leaves its buffer
empty.
-/

set_option autoImplicit false

namespace ShaderIR.Command

open Options

section

variable {σ : Type}

def processed (fs : Files (StateM σ)) (o : Options) (file : String) (world : σ) :
    (Except FileFault Unit × Output) × σ :=
  ((process fs o file).run.run {}).run world

inductive Processes (fs : Files (StateM σ)) (o : Options) :
    σ → List String → List Output → σ → Prop
  | nil (world : σ) : Processes fs o world [] [] world
  | cons {world mid last : σ} {file : String} {files : List String} {out : Output}
      {outs : List Output} (h : processed fs o file world = ((.ok (), out), mid))
      (hrest : Processes fs o mid files outs last) :
      Processes fs o world (file :: files) (out :: outs) last

namespace Output

def joined (outs : List Output) : Output :=
  ⟨String.join (outs.map out), String.join (outs.map err)⟩

def addErr (o : Output) (text : String) : Output := { o with err := o.err ++ text }

def ahead (out : Output) (r : (Nat × Output) × σ) : (Nat × Output) × σ :=
  ((r.1.1, out.append r.1.2), r.2)

theorem append_assoc (a b c : Output) : (a.append b).append c = a.append (b.append c) := by
  simp [append, String.append_assoc]

theorem append_addErr (a b : Output) (text : String) :
    (a.append b).addErr text = a.append (b.addErr text) := by
  simp [append, addErr, String.append_assoc]

theorem append_empty (out : Output) : out.append {} = out := by
  simp [append]

theorem joined_cons (out : Output) (outs : List Output) :
    joined (out :: outs) = out.append (joined outs) := by
  simp [joined, append, String.join_cons]

theorem joined_append (xs ys : List Output) :
    joined (xs ++ ys) = (joined xs).append (joined ys) := by
  simp [joined, append, String.join_append]

theorem joined_singleton (out : Output) : joined [out] = out := by
  simp [joined, String.join_cons]

theorem ahead_ahead (a b : Output) (r : (Nat × Output) × σ) :
    a.ahead (b.ahead r) = (a.append b).ahead r := by
  simp [ahead, append_assoc]

theorem empty_ahead (r : (Nat × Output) × σ) : ahead {} r = r := by
  simp [ahead, append]

end Output

def FileFault.line (e : FileFault) : String := "ralph-nir: " ++ e.message ++ "\n"

inductive RunOutcome (fs : Files (StateM σ)) (o : Options) (world : σ) (files : List String) :
    (Nat × Output) × σ → Prop
  | clean {outs : List Output} {last : σ} (h : Processes fs o world files outs last) :
      RunOutcome fs o world files ((0, .joined outs), last)
  | fault {before after : List String} {file : String} {outs : List Output} {mid last : σ}
      {e : FileFault} {out : Output} (hfiles : files = before ++ file :: after)
      (hbefore : Processes fs o world before outs mid)
      (h : processed fs o file mid = ((.error e, out), last)) :
      RunOutcome fs o world files ((1, (Output.joined (outs ++ [out])).addErr e.line), last)

section

variable {fs : Files (StateM σ)} {o : Options} {world mid : σ} {file : String}
  {files : List String} {out : Output} {outs : List Output} {e : FileFault}

def reply (fs : Files (StateM σ)) (o : Options) (files : List String) (world : σ) :
    (Nat × Output) × σ :=
  (Request.answer fs (.process o files)).run world

theorem reply_nil (fs : Files (StateM σ)) (o : Options) (world : σ) :
    reply fs o [] world = ((0, {}), world) := rfl

theorem processAndReport_run (fs : Files (StateM σ)) (o : Options) (file : String) (world : σ) :
    (processAndReport fs o file).run world =
      match processed fs o file world with
      | ((.ok _, out), mid) => ((out, true), mid)
      | ((.error e, out), mid) => ((out.addErr e.line, false), mid) := by
  unfold processAndReport processed
  rw [StateT.run_bind]
  rcases ((process fs o file).run.run {}).run world with ⟨⟨r, out⟩, mid⟩
  cases r with
  | ok _ => rfl
  | error e =>
    have htext : out.err ++ programName ++ ": " ++ e.message ++ "\n" = out.err ++ e.line := by
      simp [FileFault.line, programName, String.append_assoc]
    exact congrArg (fun text => (((⟨out.out, text⟩ : Output), false), mid)) htext

theorem processAll_cons (fs : Files (StateM σ)) (o : Options) (file : String)
    (files : List String) (world : σ) : (processAll fs o (file :: files)).run world =
      let r := (processAndReport fs o file).run world
      let q := (processAll fs o files).run r.2
      if (!r.1.2 && o.jobs = 1) = true then ((r.1.1, false), r.2)
      else ((r.1.1.append q.1.1, r.1.2 && q.1.2), q.2) := by
  rw [processAll, StateT.run_bind]
  rcases (processAndReport fs o file).run world with ⟨⟨out, ok⟩, mid⟩
  change StateT.run (if (!ok && decide (o.jobs = 1)) = true then _ else _) mid = _
  simp only
  split <;> rfl

theorem reply_eq (fs : Files (StateM σ)) (o : Options) (files : List String) (world : σ) :
    reply fs o files world =
      let q := (processAll fs o files).run world
      ((if q.1.2 then 0 else 1, q.1.1), q.2) := rfl

theorem reply_ok (h : processed fs o file world = ((.ok (), out), mid)) :
    reply fs o (file :: files) world = out.ahead (reply fs o files mid) := by
  simp [reply_eq, processAll_cons, processAndReport_run, h, Output.ahead]

theorem reply_error (hjobs : o.jobs = 1)
    (h : processed fs o file world = ((.error e, out), mid)) :
    reply fs o (file :: files) world = ((1, out.addErr e.line), mid) := by
  simp [reply_eq, processAll_cons, processAndReport_run, h, hjobs]

theorem Processes.reply (h : Processes fs o world files outs mid) (rest : List String) :
    reply fs o (files ++ rest) world = (Output.joined outs).ahead (reply fs o rest mid) := by
  induction h with
  | nil world => exact (Output.empty_ahead _).symm
  | cons h _ ih => rw [List.cons_append, reply_ok h, ih, Output.joined_cons, Output.ahead_ahead]

theorem RunOutcome.reply_eq (hjobs : o.jobs = 1) {r : (Nat × Output) × σ}
    (h : RunOutcome fs o world files r) : reply fs o files world = r := by
  cases h with
  | clean h =>
    have hreply := h.reply []
    rw [List.append_nil, reply_nil, Output.ahead, Output.append_empty] at hreply
    exact hreply
  | fault hfiles hbefore h =>
    subst hfiles
    rw [hbefore.reply, reply_error hjobs h, Output.joined_append, Output.joined_singleton,
      Output.append_addErr]
    rfl

theorem RunOutcome.cons {r : (Nat × Output) × σ}
    (h : processed fs o file world = ((.ok (), out), mid))
    (hr : RunOutcome fs o mid files r) : RunOutcome fs o world (file :: files) (out.ahead r) := by
  cases hr with
  | clean hrest =>
    rw [Output.ahead, ← Output.joined_cons]
    exact .clean (.cons h hrest)
  | fault hfiles hbefore hfault =>
    subst hfiles
    rw [Output.ahead, ← Output.append_addErr, ← Output.joined_cons]
    exact .fault rfl (.cons h hbefore) hfault

theorem reply_outcome (hjobs : o.jobs = 1) (files : List String) (world : σ) :
    RunOutcome fs o world files (reply fs o files world) := by
  induction files generalizing world with
  | nil => exact .clean (.nil world)
  | cons file files ih =>
    rcases h : processed fs o file world with ⟨⟨r, out⟩, mid⟩
    cases r with
    | ok _ =>
      rw [reply_ok h]
      exact .cons h (ih mid)
    | error e =>
      rw [reply_error hjobs h, ← Output.joined_singleton out]
      exact .fault rfl (.nil world) h

end

inductive Occupancy where
  | free
  | held (file : String)
  | failing
  | leaving
  deriving DecidableEq

structure Result where
  out : Output
  fault : Option FileFault

namespace Result

def text (r : Result) : Output :=
  match r.fault with
  | some e => r.out.addErr e.line
  | none => r.out

def flush (rs : List Result) : Nat × Output :=
  (if rs.any (·.fault.isSome) then 1 else 0, .joined (rs.map text))

theorem flush_append (rs : List Result) (r : Result) : flush (rs ++ [r]) =
    (if r.fault.isSome then 1 else (flush rs).1, (flush rs).2.append r.text) := by
  simp only [flush, List.any_append, List.map_append, Output.joined_append, List.map_cons,
    List.map_nil, Output.joined_singleton]
  cases hfault : r.fault.isSome <;> simp [hfault]

end Result

structure Group (σ : Type) where
  waiting : List String
  slot : Occupancy
  results : List Result
  cancelled : Bool
  world : σ

namespace Group

def start (files : List String) (world : σ) : Group σ := ⟨files, .free, [], false, world⟩

/-- A step of the group. A task starts when the slot is free; it does nothing in a cancelled group,
and else it processes its file. After a fault it cancels the group and only then leaves. -/
inductive Step (fs : Files (StateM σ)) (o : Options) : Group σ → Group σ → Prop
  | start {file : String} {files : List String} {results : List Result} {cancelled : Bool}
      {world : σ} :
      Step fs o ⟨file :: files, .free, results, cancelled, world⟩
        ⟨files, .held file, results, cancelled, world⟩
  | skip {file : String} {files : List String} {results : List Result} {world : σ} :
      Step fs o ⟨files, .held file, results, true, world⟩
        ⟨files, .leaving, results ++ [⟨{}, none⟩], true, world⟩
  | succeed {file : String} {files : List String} {results : List Result} {world mid : σ}
      {out : Output} (h : processed fs o file world = ((.ok (), out), mid)) :
      Step fs o ⟨files, .held file, results, false, world⟩
        ⟨files, .leaving, results ++ [⟨out, none⟩], false, mid⟩
  | fail {file : String} {files : List String} {results : List Result} {world mid : σ}
      {out : Output} {e : FileFault} (h : processed fs o file world = ((.error e, out), mid)) :
      Step fs o ⟨files, .held file, results, false, world⟩
        ⟨files, .failing, results ++ [⟨out, some e⟩], false, mid⟩
  | cancel {files : List String} {results : List Result} {cancelled : Bool} {world : σ} :
      Step fs o ⟨files, .failing, results, cancelled, world⟩
        ⟨files, .leaving, results, true, world⟩
  | leave {files : List String} {results : List Result} {cancelled : Bool} {world : σ} :
      Step fs o ⟨files, .leaving, results, cancelled, world⟩
        ⟨files, .free, results, cancelled, world⟩

def Finished (g : Group σ) : Prop := g.waiting = [] ∧ g.slot = .free

def stopped (g : Group σ) : Bool := g.cancelled || g.slot == .failing

def pending (g : Group σ) : List String :=
  match g.slot with
  | .held file => file :: g.waiting
  | _ => g.waiting

section

variable {fs : Files (StateM σ)} {o : Options} {g g' : Group σ} {total : (Nat × Output) × σ}

/-- Where the group is on its way to an outcome: it has all of it, or the files that are left will
bring the rest. -/
structure Leads (fs : Files (StateM σ)) (o : Options) (total : (Nat × Output) × σ)
    (g : Group σ) : Prop where
  stopped : g.stopped = true → total = (Result.flush g.results, g.world)
  going : g.stopped = false → (Result.flush g.results).1 = 0 ∧
    total = (Result.flush g.results).2.ahead (reply fs o g.pending g.world)

theorem leads_start (fs : Files (StateM σ)) (o : Options) (files : List String) (world : σ) :
    Leads fs o (reply fs o files world) (start files world) where
  stopped h := by cases h
  going _ := ⟨rfl, (Output.empty_ahead _).symm⟩

theorem Leads.step (hjobs : o.jobs = 1) (h : Leads fs o total g) (hs : Step fs o g g') :
    Leads fs o total g' := by
  cases hs with
  | start => exact ⟨h.stopped, h.going⟩
  | skip =>
    -- the empty buffer adds nothing
    refine ⟨fun _ => ?_, fun hgo => by cases hgo⟩
    rw [h.stopped rfl, Result.flush_append, Result.text, Output.append_empty]
    rfl
  | succeed hfile =>
    obtain ⟨hcode, htotal⟩ := h.going rfl
    refine ⟨fun hstop => (by cases hstop), fun _ => ⟨?_, ?_⟩⟩
    · rw [Result.flush_append]
      exact hcode
    · rw [htotal, Result.flush_append, pending, reply_ok hfile, Output.ahead_ahead]
      rfl
  | fail hfile =>
    -- the outcome is complete before the group is cancelled
    obtain ⟨hcode, htotal⟩ := h.going rfl
    refine ⟨fun _ => ?_, fun hgo => by cases hgo⟩
    rw [htotal, Result.flush_append, pending, reply_error hjobs hfile]
    rfl
  | cancel => exact ⟨fun _ => h.stopped (by simp [Group.stopped]), fun hgo => by cases hgo⟩
  | leave => exact ⟨h.stopped, h.going⟩

theorem Leads.finished (h : Leads fs o total g) (hg : g.Finished) :
    total = (Result.flush g.results, g.world) := by
  obtain ⟨hwaiting, hslot⟩ := hg
  cases hstop : g.stopped with
  | true => exact h.stopped hstop
  | false =>
    obtain ⟨hcode, htotal⟩ := h.going hstop
    have hpending : g.pending = [] := by rw [pending, hslot, hwaiting]
    rw [htotal, hpending, reply_nil, Output.ahead, Output.append_empty]
    exact Prod.ext (Prod.ext hcode.symm rfl) rfl

def size (g : Group σ) : Nat :=
  -- a task starts, processes its file, cancels the group and leaves
  4 * g.waiting.length + match g.slot with
    | .free => 0
    | .held _ => 3
    | .failing => 2
    | .leaving => 1

theorem Step.size_lt (h : Step fs o g g') : g'.size < g.size := by
  cases h
  all_goals
    simp only [size, List.length_cons]
    omega

theorem exists_step (fs : Files (StateM σ)) (o : Options) (hg : ¬g.Finished) :
    ∃ g', Step fs o g g' := by
  obtain ⟨waiting, slot, results, cancelled, world⟩ := g
  cases slot with
  | free =>
    cases waiting with
    | nil => exact absurd ⟨rfl, rfl⟩ hg
    | cons file files => exact ⟨_, .start⟩
  | held file =>
    cases cancelled with
    | true => exact ⟨_, .skip⟩
    | false =>
      rcases h : processed fs o file world with ⟨⟨r, out⟩, mid⟩
      cases r with
      | ok _ => exact ⟨_, .succeed h⟩
      | error e => exact ⟨_, .fail h⟩
  | failing => exact ⟨_, .cancel⟩
  | leaving => exact ⟨_, .leave⟩

theorem exists_finished (fs : Files (StateM σ)) (o : Options) (g : Group σ) :
    ∃ g', Relation.ReflTransGen (Step fs o) g g' ∧ g'.Finished := by
  induction hn : g.size using Nat.strongRecOn generalizing g with
  | _ n ih =>
    by_cases hg : g.Finished
    · exact ⟨g, .refl, hg⟩
    · obtain ⟨g₁, hstep⟩ := exists_step fs o hg
      obtain ⟨g', hrun, hfinished⟩ := ih g₁.size (hn ▸ hstep.size_lt) g₁ rfl
      exact ⟨g', .head hstep hrun, hfinished⟩

theorem Leads.run (hjobs : o.jobs = 1) (h : Leads fs o total g)
    (hrun : Relation.ReflTransGen (Step fs o) g g') : Leads fs o total g' := by
  induction hrun with
  | refl => exact h
  | tail _ hstep ih => exact ih.step hjobs hstep

end

end Group

/-- With one job a run ends at the first file that fails, or with all files processed. A group of
tasks with one slot always comes to an end, and to the same one. -/
theorem one_job_ends_at_first_fault (fs : Files (StateM σ)) {o : Options} (hjobs : o.jobs = 1)
    (files : List String) (world : σ) :
    (∀ r, (Request.answer fs (.process o files)).run world = r ↔ RunOutcome fs o world files r) ∧
    ∀ g, Relation.ReflTransGen (Group.Step fs o) (Group.start files world) g →
      (∃ g', Relation.ReflTransGen (Group.Step fs o) g g' ∧ g'.Finished) ∧
      (g.Finished →
        (Result.flush g.results, g.world) = (Request.answer fs (.process o files)).run world) := by
  refine ⟨fun r => ⟨?_, RunOutcome.reply_eq hjobs⟩, fun g hrun => ⟨Group.exists_finished fs o g, ?_⟩⟩
  · rintro rfl
    exact reply_outcome hjobs files world
  · intro hg
    have hleads := (Group.leads_start fs o files world).run hjobs hrun
    exact (hleads.finished hg).symm

end

def shelf : Files (StateM (List (String × String))) where
  read name := do
    match (← get).lookup name with
    | some text => return .ok text
    | none => return .error ⟨"open", name, .notFound⟩
  write name text := do
    if ((← get).lookup name).isSome then
      return .error ⟨"open", name, .other "file exists"⟩
    modify (· ++ [(name, text)])
    return .ok ()
  find name := do
    return if ((← get).lookup name).isSome then .ok () else .error .notFound

def shelved : List (String × String) :=
  [("a", "format: 1.0\nshader: s"), ("b", "format: 1.0\nshader: t"),
    ("c", "format: 1.0\nshader: u"), ("b.lowered.nir", "")]

/-- The second of three files fails after it was dumped as it is. The first has been dumped twice,
and nothing is done for the third. -/
theorem shelf_outcome :
    let o : Options := { jobs := 1, dumpInput := true, dumpLowered := true }
    let mid := shelved ++ [("a.input.nir", "shader s\n"), ("a.lowered.nir", "shader s\n")]
    let last := mid ++ [("b.input.nir", "shader t\n")]
    let line := "ralph-nir: error creating b.lowered.nir: open b.lowered.nir: file exists\n"
    let total : Output := ⟨"shader s\nshader s\nshader t\n", line⟩
    o.jobs = 1 ∧ Processes shelf o shelved ["a"] [⟨"shader s\nshader s\n", ""⟩] mid ∧
    (∃ e, processed shelf o "b" mid = ((.error e, ⟨"shader t\n", ""⟩), last) ∧ e.line = line) ∧
    (Request.answer shelf (.process o ["a", "b", "c"])).run shelved = ((1, total), last) ∧
    ∀ g, Relation.ReflTransGen (Group.Step shelf o) (Group.start ["a", "b", "c"] shelved) g →
      g.Finished → (Result.flush g.results, g.world) = ((1, total), last) := by
  intro o mid last line total
  have hfirst : processed shelf o "a" shelved = ((.ok (), ⟨"shader s\nshader s\n", ""⟩), mid) :=
    Prod.ext (Prod.ext (ok_of_toOption (by decide +kernel)) (by decide +kernel))
      (by decide +kernel)
  have hbefore : Processes shelf o shelved ["a"] [⟨"shader s\nshader s\n", ""⟩] mid :=
    .cons hfirst (.nil mid)
  obtain ⟨e, herror, he⟩ : ∃ e, (processed shelf o "b" mid).1.1 = .error e ∧ e.line = line :=
    mapError_eq_error (by decide +kernel)
  have hout : (processed shelf o "b" mid).1.2 = ⟨"shader t\n", ""⟩ := by decide +kernel
  have hlast : (processed shelf o "b" mid).2 = last := by decide +kernel
  have hsecond : processed shelf o "b" mid = ((.error e, ⟨"shader t\n", ""⟩), last) :=
    Prod.ext (Prod.ext herror hout) hlast
  have htotal : (Output.joined [⟨"shader s\nshader s\n", ""⟩, ⟨"shader t\n", ""⟩]).addErr e.line =
      total := by
    rw [he]
    decide +kernel
  obtain ⟨hends, hgroup⟩ := one_job_ends_at_first_fault shelf (o := o) rfl ["a", "b", "c"] shelved
  have hfiles : ["a", "b", "c"] = ["a"] ++ "b" :: ["c"] := rfl
  have hreply := (hends _).mpr (.fault hfiles hbefore hsecond)
  rw [List.singleton_append, htotal] at hreply
  exact ⟨rfl, hbefore, ⟨e, hsecond, he⟩, hreply, fun g hrun hg =>
    ((hgroup g hrun).2 hg).trans hreply⟩

end ShaderIR.Command

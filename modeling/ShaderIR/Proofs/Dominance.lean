import ShaderIR.Proofs.Reachability
import ShaderIR.Proofs.StoredAnalyses

/-!
# Dominance is exact

A block dominates another when it lies on every path from the entry to it. The last block before the
end of a path that dominates this end is dominated by all other blocks that do, so a block which can
be reached has exactly one immediate dominator, unless it is the entry. The analysis closes one node
after the other and searches what can still be reached. What it stores on the blocks is exactly what
paths tell.
-/

set_option autoImplicit false

namespace ShaderIR

namespace Graph

def strict (g : Graph) (entry i : Nat) : List Nat :=
  (List.range g.size).filter fun d =>
    d != i && (flags g.size (g.reach entry))[d]? == some true && dominatesBy (g.cuts entry) d i

theorem mem_strict {g : Graph} {entry i d : Nat} : d ∈ g.strict entry i ↔
    d < g.size ∧ d ≠ i ∧ d ∈ g.reach entry ∧ dominatesBy (g.cuts entry) d i = true := by
  simp only [strict, List.mem_filter, List.mem_range, Bool.and_eq_true, bne_iff_ne, beq_iff_eq,
    getElem?_flags, and_assoc]
  refine and_congr_right fun hd => ?_
  simp [hd]

theorem getElem?_idoms {g : Graph} {entry i : Nat} (hi : i < g.size) :
    (g.idoms entry)[i]? = some (if i ∈ g.reach entry then
      (g.strict entry i).find? (isLastOf (g.cuts entry) (g.strict entry i)) else none) := by
  have hmet : ((flags g.size (g.reach entry))[i]? == some true) = decide (i ∈ g.reach entry) := by
    simp [getElem?_flags, hi]
  simp only [idoms, Array.getElem?_map, Array.getElem?_range, hi, if_true, Option.map_some, hmet,
    decide_eq_true_eq]
  rfl

end Graph

namespace Body

structure Leads (b : Body) (path : List BlockId) (k : BlockId) : Prop where
  isPath : b.IsPath path
  head : path.head? = b.layout[0]?
  last : path.getLast? = some k

def Reachable (b : Body) (k : BlockId) : Prop := ∃ path, b.Leads path k

def Dominates (b : Body) (d k : BlockId) : Prop := ∀ path, b.Leads path k → d ∈ path

structure ImmediatelyDominates (b : Body) (d k : BlockId) : Prop where
  ne : d ≠ k
  dominates : b.Dominates d k
  last : ∀ e, e ≠ k → e ≠ d → b.Dominates e k → b.Dominates e d

namespace Leads

variable {b : Body} {path rest : List BlockId} {d j k : BlockId}

theorem entry (hk : b.layout[0]? = some k) : b.Leads [k] k :=
  ⟨⟨by simpa using Array.mem_of_getElem? hk, List.isChain_singleton k⟩, hk.symm, rfl⟩

theorem mem (h : b.Leads path k) : k ∈ path := List.mem_of_getLast? h.last

theorem mem_layout (h : b.Leads path k) (hd : d ∈ path) : d ∈ b.layout := h.isPath.1 d hd

theorem step (h : b.Leads path k) (hj : j ∈ b.next k) (hl : j ∈ b.layout) :
    b.Leads (path ++ [j]) j := by
  obtain ⟨pre, rfl⟩ := List.getLast?_eq_some_iff.mp h.last
  refine ⟨⟨fun i hi => ?_, ?_⟩, ?_, by simp⟩
  · rcases List.mem_append.mp hi with hi | hi
    · exact h.isPath.1 i hi
    · exact List.mem_singleton.mp hi ▸ hl
  · refine h.isPath.2.append (List.isChain_singleton j) ?_
    simpa using hj
  · rw [← h.head]
    simp

theorem cut (h : b.Leads (path ++ d :: rest) k) : b.Leads (path ++ [d]) d := by
  have heq : path ++ d :: rest = path ++ [d] ++ rest := by simp
  rw [heq] at h
  refine ⟨⟨fun i hi => h.isPath.1 i (List.mem_append_left _ hi), h.isPath.2.left_of_append⟩,
    ?_, by simp⟩
  rw [← h.head]
  simp

theorem join {path' : List BlockId} (h : b.Leads (path ++ d :: rest) k) (hd : b.Leads path' d)
    (hrest : rest ≠ []) : b.Leads (path' ++ rest) k := by
  obtain ⟨hnext, hchain⟩ := List.isChain_cons.mp h.isPath.2.right_of_append
  refine ⟨⟨fun i hi => ?_, hd.isPath.2.append hchain ?_⟩, ?_, ?_⟩
  · rcases List.mem_append.mp hi with hi | hi
    · exact hd.mem_layout hi
    · exact h.mem_layout (by simp [hi])
  · intro x hx y hy
    obtain rfl := Option.some.inj (hd.last.symm.trans hx)
    exact hnext y hy
  · have hne : path' ≠ [] := List.ne_nil_of_mem hd.mem
    rw [← hd.head, List.head?_append_of_ne_nil _ hne]
  · have hlast := h.last
    have heq : path ++ d :: rest = path ++ [d] ++ rest := by simp
    rw [heq, List.getLast?_append_of_ne_nil _ hrest] at hlast
    rw [List.getLast?_append_of_ne_nil _ hrest]
    exact hlast

theorem cases_last (h : b.Leads path k) : path = [k] ∧ b.layout[0]? = some k ∨
    ∃ pre j, path = pre ++ [k] ∧ b.Leads pre j ∧ k ∈ b.next j := by
  obtain ⟨pre, rfl⟩ := List.getLast?_eq_some_iff.mp h.last
  rcases List.eq_nil_or_concat' pre with rfl | ⟨pre, j, rfl⟩
  · exact .inl ⟨rfl, h.head.symm⟩
  · rw [List.append_assoc] at h
    refine .inr ⟨pre ++ [j], j, rfl, h.cut, ?_⟩
    simpa using h.isPath.2.right_of_append

theorem reachable (h : b.Leads path k) (hd : d ∈ path) : b.Reachable d := by
  obtain ⟨pre, post, rfl⟩ := List.append_of_mem hd
  exact ⟨_, h.cut⟩

end Leads

theorem exists_last {P : BlockId → Prop} {path : List BlockId} (h : ∃ d ∈ path, P d) :
    ∃ pre d post, path = pre ++ d :: post ∧ P d ∧ ∀ e ∈ post, ¬ P e := by
  induction path with
  | nil => simp at h
  | cons j path ih =>
    by_cases hlater : ∃ d ∈ path, P d
    · obtain ⟨pre, d, post, rfl, hd, hpost⟩ := ih hlater
      exact ⟨j :: pre, d, post, rfl, hd, hpost⟩
    · have hj : P j := by
        obtain ⟨d, hd, hP⟩ := h
        rcases List.mem_cons.mp hd with rfl | hd
        · exact hP
        · exact absurd ⟨d, hd, hP⟩ hlater
      exact ⟨[], j, path, rfl, hj, fun e he hP => hlater ⟨e, he, hP⟩⟩

section

variable {b : Body} {d e k : BlockId}

theorem Dominates.reachable (h : b.Dominates d k) (hk : b.Reachable k) : b.Reachable d := by
  obtain ⟨path, hpath⟩ := hk
  exact hpath.reachable (h path hpath)

theorem Dominates.mem_layout (h : b.Dominates d k) (hk : b.Reachable k) : d ∈ b.layout := by
  obtain ⟨path, hpath⟩ := hk
  exact hpath.mem_layout (h path hpath)

theorem entry_dominates (he : b.layout[0]? = some e) (k : BlockId) : b.Dominates e k := by
  intro path hpath
  exact List.mem_of_head? (hpath.head.trans he)

/-- Of two blocks that can be reached only one can dominate the other. -/
theorem Dominates.antisymm (h : b.Dominates d e) (h' : b.Dominates e d) (hd : b.Reachable d) :
    d = e := by
  obtain ⟨path, hpath⟩ := hd
  -- the part of a path up to the first of the two blocks avoids the other one
  have hfirst : (path.find? fun x => x == d || x == e).isSome := by
    rw [List.find?_isSome]
    exact ⟨d, hpath.mem, by simp⟩
  obtain ⟨x, hx⟩ := Option.isSome_iff_exists.mp hfirst
  obtain ⟨hor, pre, post, rfl, hpre⟩ := List.find?_eq_some_iff_append.mp hx
  simp only [Bool.or_eq_true, beq_iff_eq] at hor
  have hcut := hpath.cut
  rcases hor with rfl | rfl
  · rcases List.mem_append.mp (h' _ hcut) with he | he
    · simpa using hpre e he
    · exact (List.mem_singleton.mp he).symm
  · rcases List.mem_append.mp (h _ hcut) with hd | hd
    · simpa using hpre d hd
    · exact List.mem_singleton.mp hd

theorem ImmediatelyDominates.unique (hd : b.ImmediatelyDominates d k)
    (he : b.ImmediatelyDominates e k) (hk : b.Reachable k) : d = e := by
  by_contra hne
  have hde : b.Dominates d e := he.last d hd.ne hne hd.dominates
  have hed : b.Dominates e d := hd.last e he.ne (Ne.symm hne) he.dominates
  exact hne (hde.antisymm hed (hd.dominates.reachable hk))

theorem not_immediatelyDominates_entry (he : b.layout[0]? = some e) :
    ¬ b.ImmediatelyDominates d e := by
  intro h
  exact h.ne (List.mem_singleton.mp (h.dominates _ (.entry he)))

/-- The last block before the end of a path that dominates the end does so immediately. -/
theorem exists_immediatelyDominates (hk : b.Reachable k) (he : b.layout[0]? ≠ some k) :
    ∃ d, b.ImmediatelyDominates d k := by
  obtain ⟨path, hpath⟩ := hk
  obtain ⟨e, hhead⟩ : ∃ e, b.layout[0]? = some e := by
    rw [← hpath.head]
    exact ⟨_, List.head?_eq_some_head (List.ne_nil_of_mem hpath.mem)⟩
  have hentry : b.Dominates e k := entry_dominates hhead k
  have hstrict : ∃ d ∈ path, d ≠ k ∧ b.Dominates d k :=
    ⟨e, hentry path hpath, fun heq => he (heq ▸ hhead), hentry⟩
  obtain ⟨pre, d, post, rfl, ⟨hne, hd⟩, hpost⟩ := exists_last hstrict
  have hrest : post ≠ [] := by
    rintro rfl
    have hlast := hpath.last
    rw [List.getLast?_concat] at hlast
    exact hne (Option.some.inj hlast)
  refine ⟨d, hne, hd, fun e hek _ hdom path' hpath' => ?_⟩
  rcases List.mem_append.mp (hdom _ (hpath.join hpath' hrest)) with hmem | hmem
  · exact hmem
  · exact absurd ⟨hek, hdom⟩ (hpost e hmem)

end

section

variable {b : Body} (h : b.Indexed) (hc : b.Closed)

include h hc

theorem flow_bounded : b.flow.Bounded := by
  intro v hv w hw
  have hv : v < b.layout.size := hv
  obtain ⟨j, -, hj⟩ := (h.mem_flow_succs hc (Array.getElem?_eq_getElem hv)).mp hw
  exact (Array.getElem?_eq_some_iff.mp hj).1

/-- A path through open nodes is a path of blocks at open places. -/
theorem exists_leads_of_reaches {closed : Nat → Bool} {i : Nat} (hlt : 0 < b.layout.size)
    (hr : b.flow.Reaches closed 0 i) : ∃ path k, b.layout[i]? = some k ∧ b.Leads path k ∧
      ∀ j ∈ path, ∀ m, b.layout[m]? = some j → closed m = false := by
  induction hr with
  | start hopen =>
    have he : b.layout[0]? = some b.layout[0] := Array.getElem?_eq_getElem hlt
    refine ⟨[b.layout[0]], b.layout[0], he, .entry he, fun j hj m hm => ?_⟩
    obtain rfl := List.mem_singleton.mp hj
    rw [h.place_unique hm he]
    exact hopen
  | step _ hw hopen ih =>
    obtain ⟨path, k, hk, hpath, hpathOpen⟩ := ih
    obtain ⟨j, hj, hplace⟩ := (h.mem_flow_succs hc hk).mp hw
    refine ⟨path ++ [j], j, hplace, hpath.step hj (Array.mem_of_getElem? hplace), ?_⟩
    intro x hx m hm
    rcases List.mem_append.mp hx with hx | hx
    · exact hpathOpen x hx m hm
    · obtain rfl := List.mem_singleton.mp hx
      rw [h.place_unique hm hplace]
      exact hopen

theorem reaches_of_leads {closed : Nat → Bool} (path : List BlockId) :
    ∀ {i : Nat} {k : BlockId}, b.layout[i]? = some k → b.Leads path k →
      (∀ j ∈ path, ∀ m, b.layout[m]? = some j → closed m = false) →
      b.flow.Reaches closed 0 i := by
  induction path using List.reverseRecOn with
  | nil => exact fun _ hpath => absurd hpath.mem List.not_mem_nil
  | append_singleton pre x ih =>
    intro i k hk hpath hopen
    have hi : closed i = false := hopen k hpath.mem i hk
    rcases hpath.cases_last with ⟨-, he⟩ | ⟨pre', j, heq, hpre, hj⟩
    · rw [h.place_unique hk he] at hi ⊢
      exact .start hi
    · obtain ⟨rfl, -⟩ := List.append_inj' heq rfl
      obtain ⟨m, hm⟩ := Array.mem_iff_getElem?.mp (hpre.mem_layout hpre.mem)
      have hstep := ih hm hpre fun y hy => hopen y (List.mem_append_left _ hy)
      exact hstep.step ((h.mem_flow_succs hc hm).mpr ⟨k, hj, hk⟩) hi

/-- The search finds exactly the blocks that paths lead to which avoid the closed places. -/
theorem mem_reachAvoiding_iff {closed : Nat → Bool} {i : Nat} {k : BlockId}
    (hk : b.layout[i]? = some k) : i ∈ b.flow.reachAvoiding closed 0 ↔
      ∃ path, b.Leads path k ∧ ∀ j ∈ path, ∀ m, b.layout[m]? = some j → closed m = false := by
  have hlt : 0 < b.layout.size := Nat.zero_lt_of_lt (Array.getElem?_eq_some_iff.mp hk).1
  rw [Graph.mem_reachAvoiding (flow_bounded h hc) hlt]
  constructor
  · intro hr
    obtain ⟨path, k', hk', hpath⟩ := exists_leads_of_reaches h hc hlt hr
    obtain rfl := Option.some.inj (hk.symm.trans hk')
    exact ⟨path, hpath⟩
  · rintro ⟨path, hpath, hopen⟩
    exact reaches_of_leads h hc path hk hpath hopen

theorem mem_reach_iff {i : Nat} {k : BlockId} (hk : b.layout[i]? = some k) :
    i ∈ b.flow.reach 0 ↔ b.Reachable k := by
  rw [Graph.reach, mem_reachAvoiding_iff h hc hk]
  exact exists_congr fun path => and_iff_left fun _ _ _ _ => rfl

/-- A block dominates another if the search misses the other once the place of the first is closed.
-/
theorem dominatesBy_iff {i m : Nat} {d k : BlockId} (hd : b.layout[m]? = some d)
    (hk : b.layout[i]? = some k) :
    Graph.dominatesBy (b.flow.cuts 0) m i = true ↔ b.Dominates d k := by
  have hm : m < b.flow.size := (Array.getElem?_eq_some_iff.mp hd).1
  have hi : i < b.flow.size := (Array.getElem?_eq_some_iff.mp hk).1
  have hcut : (b.flow.cuts 0)[m]? =
      some (Graph.flags b.flow.size (b.flow.reachAvoiding (· == m) 0)) := by
    simp [Graph.cuts, hm]
  have hmissed : Graph.dominatesBy (b.flow.cuts 0) m i = true ↔
      i ∉ b.flow.reachAvoiding (· == m) 0 := by
    simp [Graph.dominatesBy, hcut, Graph.getElem?_flags, hi]
  have havoids (path : List BlockId) :
      (∀ j ∈ path, ∀ n, b.layout[n]? = some j → (n == m) = false) ↔ d ∉ path := by
    constructor
    · intro hopen hmem
      simpa using hopen d hmem m hd
    · intro hmem j hj n hn
      rw [beq_eq_false_iff_ne]
      rintro rfl
      exact hmem (Option.some.inj (hd.symm.trans hn) ▸ hj)
  rw [hmissed, mem_reachAvoiding_iff h hc hk, Dominates]
  simp only [havoids, not_exists, not_and, not_not]

/-- The strict dominators of a node are the places of the other blocks that dominate its block. -/
theorem mem_strict_iff {i m : Nat} {k : BlockId} (hk : b.layout[i]? = some k)
    (hr : b.Reachable k) : m ∈ b.flow.strict 0 i ↔
      ∃ d, b.layout[m]? = some d ∧ d ≠ k ∧ b.Dominates d k := by
  rw [Graph.mem_strict]
  constructor
  · rintro ⟨hm, hne, -, hdom⟩
    have hd : b.layout[m]? = some b.layout[m] := Array.getElem?_eq_getElem hm
    refine ⟨_, hd, fun heq => hne (h.place_unique (heq ▸ hd) hk), ?_⟩
    exact (dominatesBy_iff h hc hd hk).mp hdom
  · rintro ⟨d, hd, hne, hdom⟩
    refine ⟨(Array.getElem?_eq_some_iff.mp hd).1, ?_,
      (mem_reach_iff h hc hd).mpr (hdom.reachable hr), (dominatesBy_iff h hc hd hk).mpr hdom⟩
    rintro rfl
    exact hne (Option.some.inj (hd.symm.trans hk))

/-- The last of the strict dominators is the place of the immediate dominator. -/
theorem isLastOf_iff {i m : Nat} {d k : BlockId} (hd : b.layout[m]? = some d)
    (hk : b.layout[i]? = some k) (hr : b.Reachable k) (hne : d ≠ k) (hdom : b.Dominates d k) :
    Graph.isLastOf (b.flow.cuts 0) (b.flow.strict 0 i) m = true ↔ b.ImmediatelyDominates d k := by
  simp only [Graph.isLastOf, List.all_eq_true, Bool.or_eq_true, beq_iff_eq]
  constructor
  · intro hlast
    refine ⟨hne, hdom, fun e hek hed he => ?_⟩
    obtain ⟨n, hn⟩ := Array.mem_iff_getElem?.mp (he.mem_layout hr)
    rcases hlast n ((mem_strict_iff h hc hk hr).mpr ⟨e, hn, hek, he⟩) with rfl | hcut
    · exact absurd (Option.some.inj (hn.symm.trans hd)) hed
    · exact (dominatesBy_iff h hc hn hd).mp hcut
  · intro himm n hn
    obtain ⟨e, he, hek, hdome⟩ := (mem_strict_iff h hc hk hr).mp hn
    by_cases hnm : n = m
    · exact .inl hnm
    · refine .inr ((dominatesBy_iff h hc he hd).mpr (himm.last e hek ?_ hdome))
      exact fun heq => hnm (h.place_unique he (heq ▸ hd))

/-- What is computed for a place is the place of the immediate dominator. -/
theorem idoms_iff {i m : Nat} {k : BlockId} (hk : b.layout[i]? = some k) :
    (b.flow.idoms 0)[i]?.join = some m ↔
      ∃ d, b.layout[m]? = some d ∧ b.Reachable k ∧ b.ImmediatelyDominates d k := by
  have hi : i < b.flow.size := (Array.getElem?_eq_some_iff.mp hk).1
  rw [Graph.getElem?_idoms hi, Option.join_some]
  by_cases hr : b.Reachable k
  · rw [if_pos ((mem_reach_iff h hc hk).mpr hr)]
    have hsound : ∀ n, (b.flow.strict 0 i).find?
        (Graph.isLastOf (b.flow.cuts 0) (b.flow.strict 0 i)) = some n →
        ∃ d, b.layout[n]? = some d ∧ b.ImmediatelyDominates d k := by
      intro n hn
      obtain ⟨d, hd, hne, hdom⟩ := (mem_strict_iff h hc hk hr).mp (List.mem_of_find?_eq_some hn)
      exact ⟨d, hd, (isLastOf_iff h hc hd hk hr hne hdom).mp (List.find?_some hn)⟩
    constructor
    · intro hm
      obtain ⟨d, hd, himm⟩ := hsound m hm
      exact ⟨d, hd, hr, himm⟩
    · rintro ⟨d, hd, -, himm⟩
      have hlast := (isLastOf_iff h hc hd hk hr himm.ne himm.dominates).mpr himm
      have hmem := (mem_strict_iff h hc hk hr).mpr ⟨d, hd, himm.ne, himm.dominates⟩
      obtain ⟨n, hn⟩ := Option.isSome_iff_exists.mp (List.find?_isSome.mpr ⟨m, hmem, hlast⟩)
      obtain ⟨e, he, himm'⟩ := hsound n hn
      rw [hn, h.place_unique he (himm.unique himm' hr ▸ hd)]
  · rw [if_neg (hr ∘ (mem_reach_iff h hc hk).mp)]
    simp [hr]

end

theorem filterMap_range_getElem? (xs : Array BlockId) :
    (List.range xs.size).filterMap (xs[·]?) = xs.toList := by
  obtain ⟨xs⟩ := xs
  simp only [List.size_toArray, List.getElem?_toArray]
  induction xs with
  | nil => rfl
  | cons x xs ih =>
    rw [List.length_cons, List.range_succ_eq_map, List.filterMap_cons]
    simpa [List.filterMap_map, Function.comp_def] using ih

section

variable {b : Body} (h : b.Indexed) (hc : b.Closed)

include h

theorem Indexed.getElem?_parents {i : Nat} {k : BlockId} (hk : b.layout[i]? = some k) :
    b.parents[i]? = some (if i = 0 then none else (b.flow.idoms 0)[i]?.join) := by
  have hindex {j : Nat} {d : BlockId} (hd : b.layout[j]? = some d) : b.blockIndex d = j := by
    rw [blockIndex, h j d hd, Option.getD_some]
  have hlt : 0 < b.layout.size := Nat.zero_lt_of_lt (Array.getElem?_eq_some_iff.mp hk).1
  have hentry : b.layout[0]? = some b.layout[0] := Array.getElem?_eq_getElem hlt
  simp only [parents, hentry, hindex hentry, Array.getElem?_mapIdx, hk, hindex hk, Option.map_some]

include hc

theorem parents_iff {i m : Nat} {k : BlockId} (hk : b.layout[i]? = some k) :
    b.parents[i]?.join = some m ↔
      ∃ d, b.layout[m]? = some d ∧ b.Reachable k ∧ b.ImmediatelyDominates d k := by
  rw [h.getElem?_parents hk, Option.join_some]
  split
  · rename_i hi
    subst hi
    simp [not_immediatelyDominates_entry hk]
  · exact idoms_iff h hc hk

theorem dominanceAt_idom {i : Nat} {d k : BlockId} (hk : b.layout[i]? = some k) :
    (b.dominanceAt i).1 = some d ↔ b.Reachable k ∧ b.ImmediatelyDominates d k := by
  rw [dominanceAt, Option.bind_eq_some_iff]
  constructor
  · rintro ⟨m, hm, hd⟩
    obtain ⟨e, he, himm⟩ := (parents_iff h hc hk).mp hm
    obtain rfl := Option.some.inj (hd.symm.trans he)
    exact himm
  · rintro ⟨hr, himm⟩
    obtain ⟨m, hm⟩ := Array.mem_iff_getElem?.mp (himm.dominates.mem_layout hr)
    exact ⟨m, (parents_iff h hc hk).mpr ⟨d, hm, hr, himm⟩, hm⟩

omit hc in
/-- The children of a block are the blocks that it is stored on as immediate dominator. -/
theorem Indexed.dominanceAt_children {i : Nat} {k : BlockId} (hk : b.layout[i]? = some k)
    (idom : BlockId → Option BlockId)
    (hidom : ∀ j d, b.layout[j]? = some d → idom d = (b.dominanceAt j).1) :
    (b.dominanceAt i).2 = b.layout.toList.filter fun d => idom d = some k := by
  have hsize : b.parents.size = b.layout.size := by simp [parents]
  rw [dominanceAt, childrenOf, ← filterMap_range_getElem? b.layout, hsize, List.filter_filterMap,
    List.filterMap_filter]
  apply List.filterMap_congr
  intro j hj
  have hlt : j < b.layout.size := List.mem_range.mp hj
  have hd : b.layout[j]? = some b.layout[j] := Array.getElem?_eq_getElem hlt
  have hparent : b.parents[j]? = some (some i) ↔ idom b.layout[j] = some k := by
    rw [hidom j _ hd, dominanceAt, h.getElem?_parents hd, Option.some_inj, Option.join_some,
      Option.bind_eq_some_iff]
    constructor
    · exact fun hi => ⟨i, hi, hk⟩
    · rintro ⟨m, hm, hmk⟩
      rw [hm, h.place_unique hmk hk]
  rw [hd, Option.filter_some]
  simp [hparent]

end

structure Charted (b : Body) : Prop where
  there : ∀ k ∈ b.layout, k < b.blocks.size
  nodup : b.layout.toList.Nodup
  closed : b.Closed
  indexed : b.valid.index = true → b.Indexed

theorem Charted.ensureIndex {b : Body} (h : b.Charted) : b.ensureIndex.Indexed := by
  unfold Body.ensureIndex
  split
  · rename_i hv
    exact h.indexed hv
  · intro i k hk
    have hk : b.layout[i]? = some k := hk
    have hlt : k < b.blocks.size := h.there k (Array.mem_of_getElem? hk)
    have hblock := getElem?_mapBlocks_place h.nodup (fun i blk => { blk with index := i }) hk
    rw [Array.getElem?_eq_getElem hlt, Option.map_some] at hblock
    exact congrArg (Option.map Block.index) hblock

theorem require_ensureIndex {b : Body} {wanted : Analyses} (hw : wanted.dominance = true)
    (hv : b.valid.dominance = false) : b.require wanted = b.ensureIndex.require wanted := by
  have hvalid := b.valid_ensureIndex
  have hmissing (c : Body) (hc : c.valid.dominance = false) :
      wanted.diff c.valid ≠ .none := by
    simp [Analyses.diff, Analyses.none, hw, hc]
  have hdone : b.ensureIndex.ensureIndex = b.ensureIndex := by
    rw [Body.ensureIndex, if_pos (by rw [hvalid])]
  simp only [Body.require, if_neg (hmissing b hv), if_neg (hmissing _ (by rw [hvalid]; exact hv)),
    hdone]
  rw [hvalid]
  rfl

/-- The paths depend on the layout and the edges alone, and so does what they tell. -/
theorem dominance_of_sameCode {b c : Body} (hs : SameCode b c) :
    c.Reachable = b.Reachable ∧ c.ImmediatelyDominates = b.ImmediatelyDominates := by
  have hleads (path : List BlockId) (k : BlockId) : c.Leads path k ↔ b.Leads path k := by
    constructor
    · exact fun ⟨hp, hh, hl⟩ => ⟨(hs.isPath_iff path).mp hp, hs.layout ▸ hh, hl⟩
    · exact fun ⟨hp, hh, hl⟩ => ⟨(hs.isPath_iff path).mpr hp, hs.layout.symm ▸ hh, hl⟩
  have hdom (d k : BlockId) : c.Dominates d k ↔ b.Dominates d k := by
    simp only [Dominates, hleads]
  refine ⟨?_, ?_⟩
  · funext k
    simp only [Reachable, hleads]
  · funext d k
    apply propext
    constructor
    · exact fun ⟨hne, hd, hl⟩ => ⟨hne, (hdom d k).mp hd,
        fun e hek hed he => (hdom e d).mp (hl e hek hed ((hdom e k).mpr he))⟩
    · exact fun ⟨hne, hd, hl⟩ => ⟨hne, (hdom d k).mpr hd,
        fun e hek hed he => (hdom e d).mpr (hl e hek hed ((hdom e k).mp he))⟩

/-- Dominance that is missing is computed on blocks that carry their places. -/
theorem Charted.require {b : Body} (h : b.Charted) {wanted : Analyses}
    (hw : wanted.dominance = true) (hv : b.valid.dominance = false) :
    (b.require wanted).Indexed ∧ (b.require wanted).Closed ∧
      (b.require wanted).DominanceCurrent := by
  have hs : SameCode b (b.require wanted) := .require b wanted
  have hvalid : (b.require wanted).valid.dominance = true := by simp [b.valid_require, hw]
  refine ⟨?_, h.closed.congr hs.layout hs.next, ?_⟩
  · rw [require_ensureIndex hw hv]
    exact h.ensureIndex.require wanted
  · rw [require_ensureIndex hw hv] at hvalid ⊢
    refine .require h.ensureIndex (fun hstale => ?_) wanted hvalid
    rw [valid_ensureIndex, hv] at hstale
    cases hstale

theorem DominanceCurrent.exists_block {b : Body} (h : b.DominanceCurrent) {i : Nat} {k : BlockId}
    (hk : b.layout[i]? = some k) : ∃ blk, b.blocks[k]? = some blk ∧
      blk.idom = (b.dominanceAt i).1 ∧ blk.domChildren = (b.dominanceAt i).2 := by
  obtain ⟨blk, hblk, heq⟩ := Option.map_eq_some_iff.mp (h i k hk)
  exact ⟨blk, hblk, congrArg Prod.fst heq, congrArg Prod.snd heq⟩

/-- Once dominance was asked for, the blocks tell the immediate dominators by paths. None is stored
on the entry and on blocks that no path leads to. On any other block the one block is stored that
dominates it immediately. The children of a block are those that it is stored on, by their places.
-/
theorem dominance_exact {b : Body} (h : b.Charted) (wanted : Analyses)
    (hw : wanted.dominance = true) (hv : b.valid.dominance = false) :
    (b.require wanted).valid.dominance = true ∧
    ∀ k ∈ b.layout, ∃ blk, (b.require wanted).blocks[k]? = some blk ∧
      (blk.idom = none ↔ b.layout[0]? = some k ∨ ¬ b.Reachable k) ∧
      (∀ d, blk.idom = some d ↔ b.Reachable k ∧ b.ImmediatelyDominates d k) ∧
      blk.domChildren = b.layout.toList.filter fun j =>
        ((b.require wanted).blocks[j]?.bind Block.idom) = some k := by
  obtain ⟨hi, hc, hcurrent⟩ := h.require hw hv
  have hs : SameCode b (b.require wanted) := .require b wanted
  obtain ⟨hreach, himm⟩ := dominance_of_sameCode hs
  refine ⟨by simp [b.valid_require, hw], fun k hk => ?_⟩
  obtain ⟨i, hplace⟩ := Array.mem_iff_getElem?.mp (hs.layout.symm ▸ hk)
  obtain ⟨blk, hblk, hidom, hchildren⟩ := hcurrent.exists_block hplace
  have hiff (d : BlockId) : blk.idom = some d ↔ b.Reachable k ∧ b.ImmediatelyDominates d k := by
    rw [hidom, dominanceAt_idom hi hc hplace, hreach, himm]
  refine ⟨blk, hblk, ⟨fun hnone => ?_, fun hnone => ?_⟩, hiff, ?_⟩
  · by_contra hsome
    obtain ⟨hentry, hr⟩ := not_or.mp hsome
    obtain ⟨d, hd⟩ := exists_immediatelyDominates (not_not.mp hr) hentry
    rw [(hiff d).mpr ⟨not_not.mp hr, hd⟩] at hnone
    cases hnone
  · cases hd : blk.idom with
    | none => rfl
    | some d =>
      obtain ⟨hr, hdom⟩ := (hiff d).mp hd
      rcases hnone with hentry | hunreached
      · exact absurd hdom (not_immediatelyDominates_entry hentry)
      · exact absurd hr hunreached
  · have hstored (j : Nat) (d : BlockId) (hd : (b.require wanted).layout[j]? = some d) :
        ((b.require wanted).blocks[d]?.bind Block.idom) =
          ((b.require wanted).dominanceAt j).1 := by
      obtain ⟨blk', hblk', hidom', -⟩ := hcurrent.exists_block hd
      rw [hblk', Option.bind_some, hidom']
    rw [hchildren, hi.dominanceAt_children hplace _ hstored, hs.layout]

def crossing : Body :=
  -- the blocks are not numbered, the entry has an edge twice, and no edge leads to the block apart
  { blocks := #[⟨0, "exit", [], [], none, [], [], []⟩,
      ⟨0, "left", [], [1, 4], none, [], [], []⟩,
      ⟨0, "right", [], [4], none, [], [], []⟩,
      ⟨0, "entry", [], [1, 2, 1], none, [], [], []⟩,
      ⟨0, "join", [], [0, 3], none, [], [], []⟩,
      ⟨0, "apart", [], [0], none, [], [], []⟩]
    layout := #[3, 1, 2, 4, 5, 0] }

/-- The entry dominates the block where both ways meet, and that block dominates the exit. No path
leads to the block apart. -/
theorem crossing_dominance : crossing.Charted ∧ crossing.valid.dominance = false ∧
    (crossing.Reachable 4 ∧ crossing.ImmediatelyDominates 3 4) ∧
    (crossing.Reachable 0 ∧ crossing.ImmediatelyDominates 4 0) ∧ ¬ crossing.Reachable 5 := by
  have h : crossing.Charted :=
    ⟨by decide +kernel, by decide +kernel, by decide +kernel, fun hv => by cases hv⟩
  obtain ⟨-, hstored⟩ := dominance_exact h ⟨false, true, false⟩ rfl rfl
  have hidoms : [4, 0, 5].map (fun k =>
      (crossing.require ⟨false, true, false⟩).blocks[k]?.bind Block.idom) =
        [some 3, some 4, none] := by
    decide +kernel
  simp only [List.map_cons, List.map_nil, List.cons.injEq, and_true] at hidoms
  obtain ⟨hjoin, hexit, hapart⟩ := hidoms
  obtain ⟨join, hblk, -, hiff, -⟩ := hstored 4 (by decide +kernel)
  obtain ⟨exit, hblk', -, hiff', -⟩ := hstored 0 (by decide +kernel)
  obtain ⟨apart, hblk'', hnone, -⟩ := hstored 5 (by decide +kernel)
  rw [hblk, Option.bind_some] at hjoin
  rw [hblk', Option.bind_some] at hexit
  rw [hblk'', Option.bind_some] at hapart
  refine ⟨h, rfl, (hiff 3).mp hjoin, (hiff' 4).mp hexit, (hnone.mp hapart).resolve_left ?_⟩
  decide +kernel

end Body

end ShaderIR

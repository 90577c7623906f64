import Mathlib.Data.List.Basic
import Mathlib.Logic.Function.Basic
import ShaderIR.Command.Path

/-!
# Routes

The route of a name is the shortest way to the place that the name gives: from the root, or up some
number of directories, and then down through ordinary parts. Cleaning a name writes its route, and a
written route is read back as itself. So two names are taken for the same file exactly when they
have the same route, and a directory may be cleaned before an entry is put behind it.
-/

set_option autoImplicit false

namespace ShaderIR.FileName

theorem split_eq_splitOn (cs : List Char) : split cs = cs.splitOn '/' := by
  induction cs with
  | nil => rfl
  | cons c cs ih =>
    rw [List.splitOn_cons_eq_if_modifyHead]
    by_cases hc : c = '/'
    · subst hc
      simp [split, ih]
    · obtain ⟨p, ps, hps⟩ := List.exists_cons_of_ne_nil (List.splitOn_ne_nil '/' cs)
      simp [split.eq_3 _ _ hc, ih, hps, hc]

theorem join_eq_intercalate (ps : List Part) : join ps = ['/'].intercalate ps := by
  fun_induction join ps with
  | case1 => rfl
  | case2 p => simp
  | case3 p ps hps ih => simp [ih, List.intercalate_cons_of_ne_nil hps]

theorem split_append (a b : List Char) : split (a ++ '/' :: b) = split a ++ split b := by
  simp only [split_eq_splitOn, List.splitOn_append_cons_self]

theorem split_of_no_slash {p : Part} (hp : '/' ∉ p) : split p = [p] := by
  rw [split_eq_splitOn, List.splitOn_eq_singleton hp]

theorem no_slash_of_mem_split {cs : List Char} {p : Part} (hp : p ∈ split cs) : '/' ∉ p := by
  induction cs generalizing p with
  | nil => simp_all [split]
  | cons c cs ih =>
    by_cases hc : c = '/'
    · subst hc
      rcases List.mem_cons.mp hp with rfl | hp
      · exact List.not_mem_nil
      · exact ih hp
    · obtain ⟨q, qs, hqs⟩ := List.exists_cons_of_ne_nil (List.splitOn_ne_nil '/' cs)
      rw [← split_eq_splitOn] at hqs
      rw [split.eq_3 _ _ hc, hqs] at hp
      rw [hqs] at ih
      rcases List.mem_cons.mp hp with rfl | hp
      · exact List.not_mem_cons_of_ne_of_not_mem (Ne.symm hc) (ih List.mem_cons_self)
      · exact ih (List.mem_cons_of_mem _ hp)

structure Ordinary (p : Part) : Prop where
  ne_nil : p ≠ []
  ne_here : p ≠ here
  ne_above : p ≠ above
  no_slash : '/' ∉ p

instance (p : Part) : Decidable (Ordinary p) :=
  decidable_of_iff (p ≠ [] ∧ p ≠ here ∧ p ≠ above ∧ '/' ∉ p)
    ⟨fun h => ⟨h.1, h.2.1, h.2.2.1, h.2.2.2⟩,
      fun h => ⟨h.ne_nil, h.ne_here, h.ne_above, h.no_slash⟩⟩

section

variable {rooted : Bool} {stack : List Part} {p q : Part} {ps : List Part}

theorem push_skip (hp : p = [] ∨ p = here) : push rooted stack p = stack := by
  unfold push
  exact if_pos hp

theorem push_ordinary (hp : Ordinary p) : push rooted stack p = p :: stack := by
  simp [push, hp.ne_nil, hp.ne_here, hp.ne_above]

theorem push_above_above : push rooted (above :: stack) above = above :: above :: stack := rfl

theorem push_above_ordinary (hq : Ordinary q) : push rooted (q :: stack) above = stack :=
  if_neg hq.ne_above

/-- The parts that are kept, last first: ordinary ones, and under them steps up, of which there are
none from the root. -/
inductive Reduced (rooted : Bool) : List Part → Prop
  | nil : Reduced rooted []
  | up {stack : List Part} (hroot : rooted = false) (hstack : ∀ p ∈ stack, p = above) :
      Reduced rooted (above :: stack)
  | name {p : Part} {stack : List Part} (hp : Ordinary p) (h : Reduced rooted stack) :
      Reduced rooted (p :: stack)

inductive Pushes (rooted : Bool) : List Part → Part → List Part → Prop
  | skip {stack : List Part} {p : Part} (hp : p = [] ∨ p = here) : Pushes rooted stack p stack
  | name {stack : List Part} {p : Part} (hp : Ordinary p) : Pushes rooted stack p (p :: stack)
  | stay (hroot : rooted = true) : Pushes rooted [] above []
  | up {stack : List Part} (hroot : rooted = false) (hstack : ∀ p ∈ stack, p = above) :
      Pushes rooted stack above (above :: stack)
  | undo {q : Part} {stack : List Part} (hq : Ordinary q) : Pushes rooted (q :: stack) above stack

namespace Reduced

theorem pushes (h : Reduced rooted stack) (hp : '/' ∉ p) :
    Pushes rooted stack p (push rooted stack p) := by
  by_cases hskip : p = [] ∨ p = here
  · rw [push_skip hskip]
    exact .skip hskip
  by_cases hup : p = above
  · subst hup
    cases h with
    | nil =>
      cases rooted with
      | true => exact .stay rfl
      | false => exact .up rfl (List.forall_mem_nil _)
    | up hroot hstack => exact .up hroot (List.forall_mem_cons.mpr ⟨rfl, hstack⟩)
    | name hq _ =>
      rw [push_above_ordinary hq]
      exact .undo hq
  · have hord : Ordinary p := ⟨(not_or.mp hskip).1, (not_or.mp hskip).2, hup, hp⟩
    rw [push_ordinary hord]
    exact .name hord

theorem tail (h : Reduced rooted (p :: stack)) : Reduced rooted stack := by
  cases h with
  | up hroot hstack =>
    cases stack with
    | nil => exact .nil
    | cons q stack =>
      obtain ⟨hq, hstack⟩ := List.forall_mem_cons.mp hstack
      rw [hq]
      exact .up hroot hstack
  | name _ h => exact h

theorem push (h : Reduced rooted stack) (hp : '/' ∉ p) :
    Reduced rooted (FileName.push rooted stack p) := by
  have hpushes := h.pushes hp
  generalize FileName.push rooted stack p = next at hpushes
  cases hpushes with
  | skip _ => exact h
  | name hp => exact .name hp h
  | stay _ => exact .nil
  | up hroot hstack => exact .up hroot hstack
  | undo _ => exact h.tail

theorem foldl (h : Reduced rooted stack) (hps : ∀ p ∈ ps, '/' ∉ p) :
    Reduced rooted (ps.foldl (FileName.push rooted) stack) := by
  induction ps generalizing stack with
  | nil => exact h
  | cons p ps ih =>
    obtain ⟨hp, hps⟩ := List.forall_mem_cons.mp hps
    exact ih (h.push hp) hps

theorem mem (h : Reduced rooted stack) (hp : p ∈ stack) : p ≠ [] ∧ '/' ∉ p := by
  induction h with
  | nil => cases hp
  | up _ hstack =>
    have hup : p = above := (List.mem_cons.mp hp).elim id (hstack p)
    subst hup
    decide
  | name hq _ ih =>
    rcases List.mem_cons.mp hp with rfl | hp
    · exact ⟨hq.ne_nil, hq.no_slash⟩
    · exact ih hp

theorem push_top (h : Reduced rooted (p :: stack)) : FileName.push rooted stack p = p :: stack := by
  cases h with
  | up hroot hstack =>
    subst hroot
    cases stack with
    | nil => rfl
    | cons q stack =>
      rw [(List.forall_mem_cons.mp hstack).1]
      exact push_above_above
  | name hp _ => exact push_ordinary hp

theorem rebuild (h : Reduced rooted stack) :
    stack.reverse.foldl (FileName.push rooted) [] = stack := by
  rw [List.foldl_reverse]
  induction stack with
  | nil => rfl
  | cons p stack ih => rw [List.foldr_cons, ih h.tail, h.push_top]

end Reduced

theorem foldl_split_join (hps : ∀ p ∈ ps, '/' ∉ p) :
    (split (join ps)).foldl (push rooted) stack = ps.foldl (push rooted) stack := by
  by_cases hnil : ps = []
  · subst hnil
    -- an empty text has one empty part, which is skipped
    change push rooted stack [] = stack
    exact push_skip (.inl rfl)
  · rw [split_eq_splitOn, join_eq_intercalate, List.splitOn_intercalate '/' hps hnil]

theorem isRooted_append {a : List Char} (ha : a ≠ []) (b : List Char) :
    isRooted (a ++ b) = isRooted a := by
  rw [isRooted, List.head?_append_of_ne_nil _ ha, isRooted]

theorem isRooted_of_no_slash (hp : '/' ∉ p) : isRooted p = false :=
  beq_eq_false_iff_ne.mpr fun h => hp (List.mem_of_mem_head? h)

theorem isRooted_join (hps : ∀ p ∈ ps, p ≠ [] ∧ '/' ∉ p) : isRooted (join ps) = false := by
  fun_cases join ps with
  | case1 => rfl
  | case2 p => exact isRooted_of_no_slash (hps p List.mem_cons_self).2
  | case3 p ps _ =>
    obtain ⟨hne, hslash⟩ := hps p List.mem_cons_self
    rw [isRooted_append hne, isRooted_of_no_slash hslash]

end

@[ext]
structure Route where
  rooted : Bool
  stack : List Part
  reduced : Reduced rooted stack

def routeOf (cs : List Char) : Route where
  rooted := isRooted cs
  stack := (split cs).foldl (push (isRooted cs)) []
  reduced := Reduced.nil.foldl fun _ hp => no_slash_of_mem_split hp

theorem routeOf_eq {cs : List Char} {r : Route} (hroot : isRooted cs = r.rooted)
    (hstack : (split cs).foldl (push r.rooted) [] = r.stack) : routeOf cs = r := by
  ext1
  · exact hroot
  · rw [← hstack, ← hroot]
    rfl

namespace Route

def parts (r : Route) : List Part := r.stack.reverse

def text (r : Route) : List Char :=
  if r.rooted then '/' :: join r.parts
  else if r.stack = [] then here else join r.parts

theorem mem_parts (r : Route) : ∀ p ∈ r.parts, p ≠ [] ∧ '/' ∉ p :=
  fun _ hp => r.reduced.mem (List.mem_reverse.mp hp)

theorem isRooted_text (r : Route) : isRooted r.text = r.rooted := by
  unfold text
  split_ifs with hroot hstack
  · exact hroot.symm
  · exact (eq_false_of_ne_true hroot).symm
  · rw [isRooted_join r.mem_parts, eq_false_of_ne_true hroot]

theorem foldl_split_text (r : Route) :
    (split r.text).foldl (push r.rooted) [] = r.parts.foldl (push r.rooted) [] := by
  have hjoin : (split (join r.parts)).foldl (push r.rooted) [] =
      r.parts.foldl (push r.rooted) [] :=
    foldl_split_join fun p hp => (r.mem_parts p hp).2
  unfold text
  split_ifs with hroot hstack
  · exact hjoin
  · rw [parts, hstack]
    rfl
  · exact hjoin

theorem routeOf_text (r : Route) : routeOf r.text = r :=
  routeOf_eq r.isRooted_text (r.foldl_split_text.trans r.reduced.rebuild)

theorem text_injective : Function.Injective text :=
  Function.LeftInverse.injective routeOf_text

theorem text_ne_nil (r : Route) : r.text ≠ [] := by
  intro h
  -- nothing is read as the way to where one stands, which is written as a dot
  have hread : routeOf [] = r := h ▸ r.routeOf_text
  subst hread
  cases h

end Route

theorem cleanChars_eq (cs : List Char) : cleanChars cs = (routeOf cs).text := by
  have hparts : cleanParts cs = (routeOf cs).parts := rfl
  unfold cleanChars Route.text
  rw [hparts]
  by_cases hstack : (routeOf cs).stack = []
  · rw [Route.parts, hstack]
    rfl
  · obtain ⟨p, ps, hps⟩ : ∃ p ps, (routeOf cs).parts = p :: ps :=
      List.exists_cons_of_ne_nil (List.reverse_ne_nil_iff.mpr hstack)
    rw [if_neg hstack, hps]
    rfl

theorem same_iff {a b : String} : same a b = true ↔ routeOf a.toList = routeOf b.toList := by
  rw [same, beq_iff_eq, clean, clean, String.ofList_inj, cleanChars_eq, cleanChars_eq,
    Route.text_injective.eq_iff]

namespace Route

def entry (r : Route) {p : Part} (hp : Ordinary p) : Route :=
  ⟨r.rooted, p :: r.stack, .name hp r.reduced⟩

theorem entry_inj {r s : Route} {p q : Part} {hp : Ordinary p} {hq : Ordinary q} :
    r.entry hp = s.entry hq ↔ r = s ∧ p = q := by
  simp only [entry, Route.ext_iff, List.cons.injEq]
  tauto

end Route

def Leading (d : List Char) : Prop := d = [] ∨ ∃ a, d = a ++ ['/']

section

variable {d : List Char} {p : Part}

theorem Leading.isRooted_append (hd : Leading d) (hp : '/' ∉ p) :
    isRooted (d ++ p) = isRooted d := by
  rcases hd with rfl | ⟨a, rfl⟩
  · exact isRooted_of_no_slash hp
  · exact FileName.isRooted_append (List.append_ne_nil_of_right_ne_nil a (List.cons_ne_nil _ _)) p

/-- The part between a last slash and the end is empty and leaves no trace. -/
theorem Leading.foldl_split_append (hd : Leading d) (hp : '/' ∉ p) (rooted : Bool) :
    (split (d ++ p)).foldl (push rooted) [] =
      push rooted ((split d).foldl (push rooted) []) p := by
  rcases hd with rfl | ⟨a, rfl⟩
  · rw [List.nil_append, split_of_no_slash hp]
    rfl
  · rw [List.append_assoc, List.singleton_append, split_append, split_append,
      split_of_no_slash hp, List.foldl_append, List.foldl_append]
    rfl

theorem routeOf_append (hd : Leading d) (hp : Ordinary p) :
    routeOf (d ++ p) = (routeOf d).entry hp := by
  refine routeOf_eq (hd.isRooted_append hp.no_slash) ?_
  rw [hd.foldl_split_append hp.no_slash, push_ordinary hp]
  rfl

theorem routeOf_append_slash (hd : d ≠ []) : routeOf (d ++ ['/']) = routeOf d := by
  refine routeOf_eq (isRooted_append hd _) ?_
  rw [split_append, List.foldl_append]
  rfl

end

end ShaderIR.FileName

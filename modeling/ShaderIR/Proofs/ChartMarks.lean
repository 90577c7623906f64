import Mathlib.Order.Bounds.Basic
import ShaderIR.Proofs.BlockOrder

/-!
# The marks of the register chart

Every row of the chart belongs to a heading or to an instruction, and every column to a register.
In a column there is one filled dot for each operand that reads the register and one hollow dot for
each destination that writes it, in the row of the instruction, and a bar from the first marked row
to the last. A register that is read as an index of a deref chain gets no dot for it, so the chart
shows all reads of a register exactly when no chain that is gone through is indexed by it.
-/

set_option autoImplicit false

namespace ShaderIR

section

variable {α β : Type}

/-- Of a numbered list only the item of one number may bring what is looked for. -/
theorem filter_flatMap_zipIdx (l : List α) (k i : Nat) (f : α × Nat → List β) (p : β → Bool)
    (h : ∀ a j, j ≠ k + i → (f (a, j)).filter p = []) :
    ((l.zipIdx k).flatMap f).filter p =
      l[i]?.toList.flatMap fun a => (f (a, k + i)).filter p := by
  induction l generalizing k i with
  | nil => rfl
  | cons a l ih =>
    rw [List.zipIdx_cons, List.flatMap_cons, List.filter_append]
    cases i with
    | zero =>
      have hrest : ((l.zipIdx (k + 1)).flatMap f).filter p = [] := by
        rw [List.filter_flatMap, List.flatMap_eq_nil_iff]
        intro x hx
        have hle := (List.mem_zipIdx hx).1
        exact h x.1 x.2 (by omega)
      simp [hrest]
    | succ i =>
      have hshift : k + 1 + i = k + (i + 1) := by omega
      rw [h a k (by omega), List.nil_append, ih (k + 1) i (hshift ▸ h), hshift]
      rfl

end

namespace Chart

def lines (b : Body) : List (Option Op) :=
  ((blockOrder b).filterMap (b.blocks[·]?)).flatMap fun blk => none :: (b.blockOps blk).map some

def line? (b : Body) (r : Nat) : Option Op := (lines b)[r]?.join

def operandReads (b : Body) (op : Op) : List Register :=
  (op.srcs.filterMap Operand.slot?).filterMap fun s => (b.slot s).reg

def indexReads (b : Body) (op : Op) : List Register :=
  (op.derefs.flatMap (chain b.links)).filterMap fun l => l.slot?.bind fun s => (b.slot s).reg

def writes (b : Body) (op : Op) : List Register :=
  op.slotDest?.toList.filterMap fun s => (b.slot s).reg

def columnX (b : Body) (i : Nat) : Nat := textWidth (rows b) + i * columnWidth + 50

def dot (x row : Nat) (write : Bool) : Shape :=
  .circle x (rowY row - 5) 4
    (if write then "fill:white;stroke:black;stroke-width:2"
      else "fill:black;stroke:black;stroke-width:2")

def bar (x first last : Nat) : Shape :=
  .line x (rowY first - 5) x (rowY last - 5) "stroke:black;stroke-width:3"

section

variable {b : Body} {i j r : Nat} {reg : Register} {op : Op}

theorem map_accesses_rows (b : Body) :
    (rows b).map Row.accesses = (lines b).map fun o => o.toList.flatMap (accessesOf b) := by
  simp [rows, lines, List.map_flatMap, blockRows, instrRow, Function.comp_def]

theorem accesses_row (b : Body) (r : Nat) :
    (rows b)[r]?.toList.flatMap Row.accesses = (line? b r).toList.flatMap (accessesOf b) := by
  have h : (rows b)[r]?.map Row.accesses =
      (lines b)[r]?.map fun o => o.toList.flatMap (accessesOf b) := by
    rw [← List.getElem?_map, map_accesses_rows, List.getElem?_map]
  rw [line?]
  cases hline : (lines b)[r]? with
  | none =>
    rw [hline, Option.map_none, Option.map_eq_none_iff] at h
    rw [h]
    rfl
  | some o =>
    rw [hline] at h
    obtain ⟨row, hrow, haccesses⟩ := Option.map_eq_some_iff.mp h
    rw [hrow]
    simpa using haccesses

theorem row_of_line (h : line? b r = some op) : (rows b)[r]? = some (instrRow b op) := by
  have hmaps : (rows b).map (fun row => if row.heading then none else some row) =
      (lines b).map (Option.map (instrRow b)) := by
    simp [rows, lines, List.map_flatMap, blockRows, instrRow, Function.comp_def]
  have hr := congrArg (·[r]?) hmaps
  simp only [List.getElem?_map, Option.join_eq_some_iff.mp h, Option.map_some] at hr
  obtain ⟨row, hrow, heq⟩ := Option.map_eq_some_iff.mp hr
  split at heq
  · cases heq
  · rw [hrow, heq]

def rowMarks (reg : Register) (x : Row × Nat) : List Mark :=
  (x.1.accesses.filter fun a => a.slot.reg = some reg).map fun a => ⟨x.2, a.slot, a.write⟩

theorem marks_eq (rs : List Row) (reg : Register) :
    marks rs reg = rs.zipIdx.flatMap (rowMarks reg) := rfl

theorem row_of_mem_rowMarks {x : Row × Nat} {m : Mark} (h : m ∈ rowMarks reg x) : m.row = x.2 := by
  obtain ⟨a, -, rfl⟩ := List.mem_map.mp h
  rfl

theorem countP_marks (rs : List Row) (reg : Register) (r : Nat) (write : Bool) :
    (marks rs reg).countP (fun m => m.row == r && m.write == write) =
      (rs[r]?.toList.flatMap Row.accesses).countP
        fun a => decide (a.slot.reg = some reg) && a.write == write := by
  have hother : ∀ row j, j ≠ 0 + r →
      (rowMarks reg (row, j)).filter (fun m => m.row == r && m.write == write) = [] := by
    intro row j hj
    rw [List.filter_eq_nil_iff]
    intro m hm
    have hrow := row_of_mem_rowMarks hm
    simp only [Bool.and_eq_true, beq_iff_eq, not_and]
    omega
  rw [marks_eq, List.countP_eq_length_filter, filter_flatMap_zipIdx rs 0 r _ _ hother]
  cases rs[r]? with
  | none => rfl
  | some row =>
    simp [rowMarks, ← List.countP_eq_length_filter, List.countP_map, List.countP_filter,
      Function.comp_def, Bool.and_comm]

theorem pairwise_marks (rs : List Row) (reg : Register) :
    (marks rs reg).Pairwise fun m n => m.row ≤ n.row := by
  rw [marks_eq, List.pairwise_flatMap]
  refine ⟨fun x _ => List.pairwise_of_forall_mem_list fun m hm n hn => ?_, ?_⟩
  · rw [row_of_mem_rowMarks hm, row_of_mem_rowMarks hn]
  · have hsorted : (rs.zipIdx.map Prod.snd).Pairwise (· < ·) := by
      rw [List.zipIdx_map_snd]
      exact List.pairwise_lt_range'
    refine (List.pairwise_map.mp hsorted).imp fun hlt m hm n hn => ?_
    rw [row_of_mem_rowMarks hm, row_of_mem_rowMarks hn]
    exact Nat.le_of_lt hlt

/-- An instruction reads and writes what it is marked for. -/
theorem countP_accessesOf (b : Body) (op : Op) (reg : Register) (write : Bool) :
    (accessesOf b op).countP (fun a => decide (a.slot.reg = some reg) && a.write == write) =
      (if write then writes b op else operandReads b op).count reg := by
  cases write <;>
    simp [accessesOf, operandReads, writes, List.count_filterMap, List.countP_map, Function.comp_def,
      beq_eq_decide]

/-- The marks of a row are the accesses of its instruction. -/
theorem countP_marks_line (b : Body) (reg : Register) (r : Nat) (write : Bool) :
    (marks (rows b) reg).countP (fun m => m.row == r && m.write == write) =
      ((line? b r).toList.flatMap fun op => if write then writes b op else operandReads b op).count
        reg := by
  rw [countP_marks, accesses_row]
  cases line? b r with
  | none => rfl
  | some op => simpa using countP_accessesOf b op reg write

def Marked (b : Body) (reg : Register) (r : Nat) : Prop :=
  ∃ op, line? b r = some op ∧ (reg ∈ operandReads b op ∨ reg ∈ writes b op)

theorem exists_mark_iff : (∃ m ∈ marks (rows b) reg, m.row = r) ↔ Marked b reg r := by
  -- reads and writes are counted apart
  have hkind : ∀ write, (∃ m ∈ marks (rows b) reg, m.row = r ∧ m.write = write) ↔
      ∃ op, line? b r = some op ∧ reg ∈ if write then writes b op else operandReads b op := by
    intro write
    have hcount := countP_marks_line b reg r write
    have hpos := List.countP_pos_iff (l := marks (rows b) reg)
      (p := fun m => m.row == r && m.write == write)
    rw [hcount, List.count_pos_iff] at hpos
    simpa using hpos.symm
  constructor
  · rintro ⟨m, hm, hrow⟩
    obtain ⟨op, hop, hmem⟩ := (hkind m.write).mp ⟨m, hm, hrow, rfl⟩
    cases hw : m.write with
    | false => exact ⟨op, hop, .inl (by simpa [hw] using hmem)⟩
    | true => exact ⟨op, hop, .inr (by simpa [hw] using hmem)⟩
  · rintro ⟨op, hop, hread | hwrite⟩
    · obtain ⟨m, hm, hrow, -⟩ := (hkind false).mpr ⟨op, hop, hread⟩
      exact ⟨m, hm, hrow⟩
    · obtain ⟨m, hm, hrow, -⟩ := (hkind true).mpr ⟨op, hop, hwrite⟩
      exact ⟨m, hm, hrow⟩

theorem markShapes_eq (x : Nat) (m : Mark) : markShapes x m =
    [dot x m.row m.write, .text (x + 8) (rowY m.row - 5 + 4) (slotLabel m.slot)
      "fill:gray;font-size:10px;font-family:monospace"] := by
  cases hw : m.write <;> simp [markShapes, dot, hw]

theorem columnX_inj (h : columnX b i = columnX b j) : i = j := by
  simp only [columnX, columnWidth] at h
  omega

theorem drawing_shapes (b : Body) : (drawing b).shapes =
    .rect 0 0 (drawing b).width (drawing b).height "fill:white" ::
      ((rows b).zipIdx.flatMap fun x =>
        rowShapes (textWidth (rows b)) (drawing b).width x.1 x.2) ++
      (b.registers.toList.zipIdx.flatMap fun x =>
        columnShapes (textWidth (rows b)) (rows b) x.1 x.2) := rfl

structure InColumn (b : Body) (i : Nat) (p : Shape → Bool) : Prop where
  rect : ∀ x y w h s, p (.rect x y w h s) = false
  text : ∀ x y l s, p (.text x y l s) = false
  line : ∀ x y x' y' s, p (.line x y x' y' s) = true → x = columnX b i ∧ x' = columnX b i
  circle : ∀ x y r s, p (.circle x y r s) = true → x = columnX b i

namespace InColumn

variable {p : Shape → Bool}

theorem filter_rowShapes (h : InColumn b i p) (row : Row) (r : Nat) :
    (rowShapes (textWidth (rows b)) (drawing b).width row r).filter p = [] := by
  -- the lines of a row lie flat, so their two ends are apart
  have hslanted : ∀ x y x' y' s, x ≠ x' → p (.line x y x' y' s) = false := by
    intro x y x' y' s hne
    by_contra hp
    obtain ⟨rfl, rfl⟩ := h.line x y x' y' s (by simpa using hp)
    exact hne rfl
  have hwidth : 120 ≤ textWidth (rows b) := by
    rw [textWidth]
    omega
  unfold rowShapes
  split
  · have hne : 10 ≠ textWidth (rows b) + 5 := by omega
    simp only [List.filter_cons, h.text, hslanted _ _ _ _ _ hne]
    rfl
  · have hne : textWidth (rows b) + 10 ≠ (drawing b).width - 50 := by
      simp only [drawing, columnWidth]
      omega
    simp only [List.filter_cons, h.text, hslanted _ _ _ _ _ hne]
    rfl

theorem filter_columnShapes (h : InColumn b i p) (reg : Register) (j : Nat) :
    (columnShapes (textWidth (rows b)) (rows b) reg j).filter p =
      (barShapes (columnX b j) (marks (rows b) reg) ++
        (marks (rows b) reg).map fun m => dot (columnX b j) m.row m.write).filter p := by
  have hdots : ∀ ms : List Mark, (ms.flatMap (markShapes (columnX b j))).filter p =
      (ms.map fun m => dot (columnX b j) m.row m.write).filter p := by
    intro ms
    induction ms with
    | nil => rfl
    | cons m ms ih =>
      rw [List.flatMap_cons, List.filter_append, ih, List.map_cons, markShapes_eq]
      cases hp : p (dot (columnX b j) m.row m.write) <;> simp [h.text, hp]
  rw [columnShapes, List.cons_append, List.filter_cons, h.text, if_neg Bool.false_ne_true,
    List.filter_append, List.filter_append]
  exact congrArg _ (hdots _)

theorem filter_other (h : InColumn b i p) (reg : Register) (hj : j ≠ i) :
    (columnShapes (textWidth (rows b)) (rows b) reg j).filter p = [] := by
  have hx : columnX b j ≠ columnX b i := fun heq => hj (columnX_inj heq)
  rw [h.filter_columnShapes, List.filter_eq_nil_iff]
  intro s hs hp
  rcases List.mem_append.mp hs with hs | hs
  · unfold barShapes at hs
    split at hs
    · obtain rfl := List.mem_singleton.mp hs
      exact hx (h.line _ _ _ _ _ hp).1
    · cases hs
  · obtain ⟨m, -, rfl⟩ := List.mem_map.mp hs
    exact hx (h.circle _ _ _ _ hp)

theorem filter_drawing (h : InColumn b i p) (hreg : b.registers[i]? = some reg) :
    (drawing b).shapes.filter p =
      (barShapes (columnX b i) (marks (rows b) reg) ++
        (marks (rows b) reg).map fun m => dot (columnX b i) m.row m.write).filter p := by
  have hrows : ((rows b).zipIdx.flatMap fun x =>
      rowShapes (textWidth (rows b)) (drawing b).width x.1 x.2).filter p = [] := by
    rw [List.filter_flatMap, List.flatMap_eq_nil_iff]
    exact fun x _ => h.filter_rowShapes x.1 x.2
  have hcolumns := filter_flatMap_zipIdx b.registers.toList 0 i
    (fun x => columnShapes (textWidth (rows b)) (rows b) x.1 x.2) p
    (fun a j hj => h.filter_other a (by omega))
  rw [drawing_shapes, List.filter_append, List.filter_cons, h.rect, if_neg Bool.false_ne_true, hrows,
    List.nil_append, hcolumns, Array.getElem?_toList, hreg, Nat.zero_add]
  simpa using h.filter_columnShapes reg i

end InColumn

theorem dot_inColumn (b : Body) (i r : Nat) (write : Bool) :
    InColumn b i (· == dot (columnX b i) r write) where
  rect _ _ _ _ _ := rfl
  text _ _ _ _ := rfl
  line _ _ _ _ _ h := by simp [dot] at h
  circle _ _ _ _ h := (Shape.circle.inj (beq_iff_eq.mp h)).1

theorem dot_beq (x : Nat) (m : Mark) (r : Nat) (write : Bool) :
    (dot x m.row m.write == dot x r write) = (m.row == r && m.write == write) := by
  have hrow : rowY m.row - 5 = rowY r - 5 ↔ m.row = r := by
    simp only [rowY, top, rowHeight]
    omega
  rw [Bool.eq_iff_iff]
  cases hw : m.write <;> cases write <;> simp [dot, hrow]

theorem filter_barShapes (x r : Nat) (write : Bool) (ms : List Mark) :
    (barShapes x ms).filter (· == dot x r write) = [] := by
  unfold barShapes
  split <;> rfl

theorem count_dot (hreg : b.registers[i]? = some reg) (r : Nat) (write : Bool) :
    (drawing b).shapes.count (dot (columnX b i) r write) =
      ((line? b r).toList.flatMap fun op => if write then writes b op else operandReads b op).count
        reg := by
  have hmarks : (drawing b).shapes.count (dot (columnX b i) r write) =
      (marks (rows b) reg).countP fun m => m.row == r && m.write == write := by
    rw [List.count_eq_length_filter, (dot_inColumn b i r write).filter_drawing hreg,
      List.filter_append, filter_barShapes, List.nil_append, ← List.countP_eq_length_filter,
      List.countP_map]
    exact List.countP_congr fun m _ => by rw [Function.comp_apply, dot_beq]
  rw [hmarks, countP_marks_line]

def isBar (x : Nat) : Shape → Bool
  | .line x₁ _ x₂ _ _ => x₁ == x && x₂ == x
  | _ => false

theorem isBar_inColumn (b : Body) (i : Nat) : InColumn b i (isBar (columnX b i)) where
  rect _ _ _ _ _ := rfl
  text _ _ _ _ := rfl
  line _ _ _ _ _ h := by simpa [isBar] using h
  circle _ _ _ _ h := by cases h

theorem filter_isBar (hreg : b.registers[i]? = some reg) :
    (drawing b).shapes.filter (isBar (columnX b i)) =
      barShapes (columnX b i) (marks (rows b) reg) := by
  have hbar : (barShapes (columnX b i) (marks (rows b) reg)).filter (isBar (columnX b i)) =
      barShapes (columnX b i) (marks (rows b) reg) := by
    unfold barShapes
    split
    · simp [isBar]
    · rfl
  rw [(isBar_inColumn b i).filter_drawing hreg, List.filter_append, hbar]
  have hdots : ((marks (rows b) reg).map fun m => dot (columnX b i) m.row m.write).filter
      (isBar (columnX b i)) = [] := by
    rw [List.filter_eq_nil_iff]
    intro s hs
    obtain ⟨m, -, rfl⟩ := List.mem_map.mp hs
    exact Bool.false_ne_true
  rw [hdots, List.append_nil]

theorem le_of_head? {ms : List Mark} (hs : ms.Pairwise fun m n => m.row ≤ n.row) {first : Mark}
    (h : ms.head? = some first) : first ∈ ms ∧ ∀ m ∈ ms, first.row ≤ m.row := by
  obtain ⟨rest, rfl⟩ := List.head?_eq_some_iff.mp h
  refine ⟨List.mem_cons_self, fun m hm => ?_⟩
  rcases List.mem_cons.mp hm with rfl | hm
  · exact Nat.le_refl _
  · exact List.rel_of_pairwise_cons hs hm

theorem le_of_getLast? {ms : List Mark} (hs : ms.Pairwise fun m n => m.row ≤ n.row) {last : Mark}
    (h : ms.getLast? = some last) : last ∈ ms ∧ ∀ m ∈ ms, m.row ≤ last.row := by
  obtain ⟨before, rfl⟩ := List.getLast?_eq_some_iff.mp h
  refine ⟨List.mem_append_right _ (List.mem_singleton_self _), fun m hm => ?_⟩
  rcases List.mem_append.mp hm with hm | hm
  · exact (List.pairwise_append.mp hs).2.2 m hm last (List.mem_singleton_self _)
  · rw [List.mem_singleton.mp hm]

/-- The bar goes from the first marked row to the last. -/
theorem barShapes_cases (b : Body) (reg : Register) (x : Nat) :
    (∀ r, ¬Marked b reg r) ∧ barShapes x (marks (rows b) reg) = [] ∨
    ∃ first last, IsLeast {r | Marked b reg r} first ∧ IsGreatest {r | Marked b reg r} last ∧
      barShapes x (marks (rows b) reg) = [bar x first last] := by
  have hsorted := pairwise_marks (rows b) reg
  have hmarked : ∀ r, Marked b reg r ↔ ∃ m ∈ marks (rows b) reg, m.row = r :=
    fun r => exists_mark_iff.symm
  generalize marks (rows b) reg = ms at hsorted hmarked
  cases ms with
  | nil => exact .inl ⟨fun r hr => by simpa using (hmarked r).mp hr, rfl⟩
  | cons first rest =>
    have hlast := List.getLast?_eq_some_getLast (List.cons_ne_nil first rest)
    generalize (first :: rest).getLast (List.cons_ne_nil first rest) = last at hlast
    obtain ⟨hfirst, hleast⟩ := le_of_head? hsorted rfl
    obtain ⟨hmem, hgreatest⟩ := le_of_getLast? hsorted hlast
    refine .inr ⟨first.row, last.row, ⟨(hmarked _).mpr ⟨first, hfirst, rfl⟩, fun r hr => ?_⟩,
      ⟨(hmarked _).mpr ⟨last, hmem, rfl⟩, fun r hr => ?_⟩, ?_⟩
    · obtain ⟨m, hm, rfl⟩ := (hmarked r).mp hr
      exact hleast m hm
    · obtain ⟨m, hm, rfl⟩ := (hmarked r).mp hr
      exact hgreatest m hm
    · rw [barShapes, hlast]
      rfl

def instrText (b : Body) (r : Nat) (op : Op) : Shape :=
  .text (textWidth (rows b)) (rowY r) (b.renderOp op)
    "fill:black;font-size:16px;font-family:monospace;text-anchor:end"

theorem instrText_mem (h : line? b r = some op) : instrText b r op ∈ (drawing b).shapes := by
  rw [drawing_shapes, List.cons_append]
  refine List.mem_cons_of_mem _ (List.mem_append_left _ (List.mem_flatMap.mpr
    ⟨(instrRow b op, r), ?_, ?_⟩))
  · exact List.mk_mem_zipIdx_iff_getElem?.mpr (row_of_line h)
  · exact List.mem_cons_self

def columnText (b : Body) (i : Nat) (reg : Register) : Shape :=
  .text (columnX b i) 70 reg.renderDecl
    "fill:black;font-size:12px;font-family:monospace;text-anchor:middle"

theorem columnText_mem (hreg : b.registers[i]? = some reg) :
    columnText b i reg ∈ (drawing b).shapes := by
  rw [drawing_shapes, List.cons_append]
  refine List.mem_cons_of_mem _ (List.mem_append_right _ (List.mem_flatMap.mpr ⟨(reg, i), ?_, ?_⟩))
  · exact List.mk_mem_zipIdx_iff_getElem?.mpr (by rwa [Array.getElem?_toList])
  · exact List.mem_cons_self

theorem circle_mem {x y radius : Nat} {style : String}
    (h : .circle x y radius style ∈ (drawing b).shapes) :
    ∃ i < b.registers.size, ∃ r write, .circle x y radius style = dot (columnX b i) r write := by
  rw [drawing_shapes, List.cons_append] at h
  rcases List.mem_cons.mp h with h | h
  · cases h
  rcases List.mem_append.mp h with h | h
  · obtain ⟨⟨row, r⟩, -, hshape⟩ := List.mem_flatMap.mp h
    simp only [rowShapes] at hshape
    split at hshape <;> simp at hshape
  · obtain ⟨⟨reg, i⟩, hreg, hshape⟩ := List.mem_flatMap.mp h
    have hi : i < b.registers.size := by
      simpa using (List.getElem?_eq_some_iff.mp (List.mk_mem_zipIdx_iff_getElem?.mp hreg)).1
    rcases List.mem_append.mp hshape with hshape | hshape
    · unfold barShapes at hshape
      split at hshape <;> simp at hshape
    · obtain ⟨m, -, hm⟩ := List.mem_flatMap.mp hshape
      rw [markShapes_eq] at hm
      rcases List.mem_cons.mp hm with hm | hm
      · exact ⟨i, hi, m.row, m.write, hm⟩
      · simp at hm

end

/-- A column shows the operands that read its register and the destinations that write it, in the
rows of their instructions, and a bar over these rows. It shows all reads if and only if its
register is not read as an index of a chain. -/
structure ColumnShows (b : Body) (i : Nat) (reg : Register) : Prop where
  name : columnText b i reg ∈ (drawing b).shapes
  reads : ∀ r, (drawing b).shapes.count (dot (columnX b i) r false) =
    ((line? b r).toList.flatMap (operandReads b)).count reg
  writes : ∀ r, (drawing b).shapes.count (dot (columnX b i) r true) =
    ((line? b r).toList.flatMap (writes b)).count reg
  bar : (∀ r, ¬Marked b reg r) ∧ (drawing b).shapes.filter (isBar (columnX b i)) = [] ∨
    ∃ first last, IsLeast {r | Marked b reg r} first ∧ IsGreatest {r | Marked b reg r} last ∧
      (drawing b).shapes.filter (isBar (columnX b i)) = [bar (columnX b i) first last]
  whole : (∀ r op, line? b r = some op → (drawing b).shapes.count (dot (columnX b i) r false) =
      (operandReads b op ++ indexReads b op).count reg) ↔
    ∀ r op, line? b r = some op → reg ∉ indexReads b op

theorem columnShows {b : Body} {i : Nat} {reg : Register} (hreg : b.registers[i]? = some reg) :
    ColumnShows b i reg where
  name := columnText_mem hreg
  reads r := count_dot hreg r false
  writes r := count_dot hreg r true
  bar := by
    rw [filter_isBar hreg]
    exact barShapes_cases b reg (columnX b i)
  whole := by
    refine forall_congr' fun r => forall_congr' fun op => imp_congr_right fun hop => ?_
    rw [count_dot hreg r false, hop, List.count_append, ← List.count_eq_zero]
    simp

theorem draw_eq (b : Body) :
    (Body.draw.run b).1 = (drawing (b.require ⟨false, true, false⟩)).render := by
  -- stated for any drawing, which keeps the text of the chart from being computed
  have hrun : ∀ (f : Body → Body) (g : Body → String),
      ((do modify f; return g (← get) : Edit String).run b).1 = g (f b) := fun _ _ => rfl
  exact hrun (Body.require ⟨false, true, false⟩) fun b => (drawing b).render

theorem mem_blockOrder {b : Body} {k : BlockId} (hk : k ∈ b.layout) : k ∈ blockOrder b := by
  by_cases horder : k ∈ b.dominancePreorder
  · exact List.mem_append_left _ horder
  · refine List.mem_append_right _ (List.mem_filter.mpr ⟨Array.mem_toList_iff.mpr hk, ?_⟩)
    simpa using horder

theorem blockOrder_perm {b : Body} (hn : b.layout.toList.Nodup)
    (hd : b.valid.dominance = true → b.DominanceCorrect)
    (hm : b.valid.dominance = false → b.Charted) :
    (blockOrder (b.require ⟨false, true, false⟩)).Perm b.layout.toList := by
  have hs : SameCode b (b.require ⟨false, true, false⟩) := .require b _
  have hn' : (b.require ⟨false, true, false⟩).layout.toList.Nodup := hs.layout.symm ▸ hn
  obtain ⟨horder, -⟩ := (Body.dominanceCorrect_require hd hm).preorder hn'
  obtain ⟨-, -, -, -, hperm⟩ := horder.blockOrder hn'
  rwa [hs.layout] at hperm

/-- The chart has a row for each instruction of each block and a column for each register, with the
marks of the column, and no other dots. -/
theorem chart_shows_operands (b : Body) :
    let c := b.require ⟨false, true, false⟩
    (Body.draw.run b).1 = (drawing c).render ∧
    (∀ r op, line? c r = some op → instrText c r op ∈ (drawing c).shapes) ∧
    (∀ i reg, c.registers[i]? = some reg → ColumnShows c i reg) ∧
    (∀ x y radius style, .circle x y radius style ∈ (drawing c).shapes →
      ∃ i < c.registers.size, ∃ r write, .circle x y radius style = dot (columnX c i) r write) ∧
    (∀ k ∈ b.layout, k ∈ blockOrder c) ∧
    (b.layout.toList.Nodup → (b.valid.dominance = true → b.DominanceCorrect) →
      (b.valid.dominance = false → b.Charted) → (blockOrder c).Perm b.layout.toList) := by
  intro c
  have hs : SameCode b c := .require b _
  exact ⟨draw_eq b, fun r op => instrText_mem, fun i reg => columnShows,
    fun x y radius style => circle_mem, fun k hk => mem_blockOrder (hs.layout.symm ▸ hk),
    blockOrder_perm⟩

def doubling : Body :=
  let reg : Register := ⟨0, 0, 1, 32, 0⟩
  let one : Value := ⟨0, 0, 1, 32⟩
  { instrs := #[⟨.const one [1], some 1⟩, ⟨.alu .mov [.value one] (.slot 0) 1, some 1⟩,
      ⟨.alu .iadd [.slot 0, .slot 1] (.slot 2) 1, some 0⟩]
    blocks := #[⟨0, "loop", [2], [0], none, [], [], []⟩,
      ⟨0, "entry", [0, 1], [0], none, [], [], []⟩]
    slots := #[⟨some reg, 0, none⟩, ⟨some reg, 0, none⟩, ⟨some reg, 0, none⟩]
    definers := #[some 0]
    registerCount := 1
    layout := #[1, 0]
    registers := #[reg]
    valueCount := 1 }

theorem doubling_chart :
    let c := doubling.require ⟨false, true, false⟩
    doubling.layout.toList.Nodup ∧ doubling.Charted ∧
      (blockOrder c).Perm doubling.layout.toList ∧
      (drawing c).shapes.count (dot (columnX c 0) 2 true) = 1 ∧
      (drawing c).shapes.count (dot (columnX c 0) 4 false) = 2 ∧
      (drawing c).shapes.count (dot (columnX c 0) 4 true) = 1 := by
  intro c
  have hn : doubling.layout.toList.Nodup := by decide +kernel
  have hcharted : doubling.Charted :=
    ⟨by decide +kernel, by decide +kernel, by decide +kernel, fun hv => by cases hv⟩
  obtain ⟨-, -, hcolumns, -, -, hrows⟩ := chart_shows_operands doubling
  have hcolumn := hcolumns 0 ⟨0, 0, 1, 32, 0⟩ rfl
  refine ⟨hn, hcharted, hrows hn (fun hv => by cases hv) fun _ => hcharted, ?_, ?_, ?_⟩
  · rw [hcolumn.writes]
    decide +kernel
  · rw [hcolumn.reads]
    decide +kernel
  · rw [hcolumn.writes]
    decide +kernel

def gathering : Body :=
  let reg : Register := ⟨0, 0, 1, 32, 0⟩
  { instrs := #[⟨.load (some 1) (.value ⟨0, 0, 1, 32⟩) 1, some 0⟩]
    blocks := #[⟨0, "b0", [0], [], none, [], [], []⟩]
    slots := #[⟨some reg, 0, none⟩]
    definers := #[some 0]
    registerCount := 1
    links := #[varLink ⟨1, 1, "a", .array (.scalar .float) 4, .global, none⟩,
      ⟨.array (.slot 0), some 0, .scalar .float, .global⟩]
    layout := #[0]
    registers := #[reg]
    valueCount := 1 }

theorem gathering_unmarked :
    let c := gathering.require ⟨false, true, false⟩
    ∃ op, line? c 1 = some op ∧ (operandReads c op ++ indexReads c op).count ⟨0, 0, 1, 32, 0⟩ = 1 ∧
      (drawing c).shapes.count (dot (columnX c 0) 1 false) = 0 ∧
      (drawing c).shapes.filter (isBar (columnX c 0)) = [] := by
  exact ⟨.load (some 1) (.value ⟨0, 0, 1, 32⟩) 1, by decide +kernel, by decide +kernel,
    by decide +kernel, by decide +kernel⟩

end Chart

end ShaderIR

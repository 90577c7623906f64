import ShaderIR.Proofs.LoadedFunction

/-!
# Loaded shaders

What the loader accepts it makes into a shader in good order. Its variables have numbers of their
own. Each function stands apart from the others, its chains lead to a variable that it sees, every
value is defined once and before it is read, and the blocks know their places.
-/

set_option autoImplicit false

namespace ShaderIR

def Shader.variables (s : Shader) : List Variable :=
  s.globals.toList ++ s.functions.toList.flatMap Function.locals

structure Shader.Loaded (s : Shader) : Prop where
  ids : (s.variables.map (·.id)).Nodup
  globals : ∀ v ∈ s.globals, v.mode ≠ .local
  locals : ∀ f ∈ s.functions, ∀ v ∈ f.locals, v.mode = .local
  types : ∀ v ∈ s.variables, v.type.complete = true
  recorded : s.store.Recorded
  resides : ∀ i b, s.body? i = some b →
    ∃ store store' : Store, store'.Extends s.store ∧ Resides store store' s.globals.toList b
  apart : ∀ i j b c, i ≠ j → s.body? i = some b → s.body? j = some c → Apart b c

theorem exists_function {s : Shader} {i : Nat} {b : Body} (hb : s.body? i = some b) {v : Variable}
    (hv : v ∈ b.locals) : ∃ f ∈ s.functions, v ∈ f.locals := by
  obtain ⟨frame, hframe, rfl⟩ := Option.map_eq_some_iff.mp hb
  obtain ⟨f, hf, hff⟩ := Option.bind_eq_some_iff.mp hframe
  exact ⟨f, Array.mem_of_getElem? hf, by simpa [Function.locals, hff] using hv⟩

theorem Shader.Loaded.local_mode {s : Shader} (h : s.Loaded) {i : Nat} {b : Body}
    (hb : s.body? i = some b) {v : Variable} (hv : v ∈ b.locals) : v.mode = .local := by
  obtain ⟨f, hf, hvf⟩ := exists_function hb hv
  exact h.locals f hf v hvf

namespace Loading

theorem structFields_complete {structs : Ty.Structs} (hs : ∀ x ∈ structs, x.2.complete = true)
    {struct : String} {ds : List VariableDecl} {fields : List (String × Ty)}
    (h : structFields structs struct ds = .ok fields) : Ty.fieldsComplete fields = true := by
  induction ds generalizing fields with
  | nil =>
    cases h
    rfl
  | cons d ds ih =>
    unfold structFields at h
    rw [List.mapM_cons] at h
    obtain ⟨f, hf, h⟩ := except_ok h
    obtain ⟨fs, hfs, h⟩ := except_ok h
    cases h
    obtain ⟨t, ht, hf⟩ := except_ok hf
    cases hf
    rw [Ty.fieldsComplete, parse_complete hs (mapError_eq_ok_iff.mp ht), ih hfs]
    rfl

theorem declareStructs_complete {seen structs : Ty.Structs} {ds : List StructDecl}
    (hs : ∀ x ∈ seen, x.2.complete = true) (h : declareStructs seen ds = .ok structs) :
    ∀ x ∈ structs, x.2.complete = true := by
  induction ds generalizing seen with
  | nil =>
    cases h
    exact hs
  | cons d ds ih =>
    obtain ⟨fields, hfields, h⟩ := except_ok h
    split at h
    · cases h
    · apply ih _ h
      intro x hx
      rcases List.mem_cons.mp hx with rfl | hx
      · exact structFields_complete hs hfields
      · exact hs x hx

theorem globalMode_ne {d : VariableDecl} {mode : Mode} (h : globalMode d = .ok mode) :
    mode ≠ .local := by
  have hcheck : ∀ m : Mode, (do
      if m = .local then throw (.localGlobal d.name)
      return m : Except LoadError Mode) = .ok mode → mode ≠ .local := by
    intro m hm
    split at hm
    · cases hm
    · rename_i hne
      cases hm
      exact hne
  unfold globalMode at h
  dsimp only at h
  split at h
  · exact hcheck .global h
  · obtain ⟨m, -, h⟩ := except_ok h
    exact hcheck m h

theorem declareGlobals_ok {structs : Ty.Structs} {first next last : Nat}
    {seen vars : List (String × Variable)} {ds : List VariableDecl}
    (hs : ∀ x ∈ structs, x.2.complete = true)
    (hseen : Declared (· ≠ .local) first next (seen.reverse.map Prod.snd))
    (h : declareGlobals structs next seen ds = .ok (last, vars)) :
    Declared (· ≠ .local) first last (vars.reverse.map Prod.snd) := by
  induction ds generalizing next seen with
  | nil =>
    cases h
    exact hseen
  | cons d ds ih =>
    obtain ⟨mode, hmode, h⟩ := except_ok h
    obtain ⟨v, hv, h⟩ := except_ok h
    split at h
    · cases h
    · apply ih _ h
      simpa using hseen.push hs (globalMode_ne hmode) (mapError_eq_ok_iff.mp hv)

theorem buildFunctions_ok {structs : Ty.Structs} {globals : List (String × Variable)}
    {next : Nat} {store store' : Store} {ds : List FunctionDecl} {fs : List Function}
    (hs : ∀ x ∈ structs, x.2.complete = true) (hrec : store.Recorded)
    (h : buildFunctions structs globals next store ds = .ok (fs, store')) :
    ∃ last, store.Extends store' ∧ store'.Recorded ∧
      Declared (· = .local) next last (fs.flatMap Function.locals) ∧
      (∀ f ∈ fs, ∀ frame ∈ f.frame, ∃ s s' : Store, store.Extends s ∧ s'.Extends store' ∧
        Resides s s' (globals.map Prod.snd) ⟨store', frame⟩) ∧
      fs.Pairwise fun f g => ∀ frame ∈ f.frame, ∀ frame' ∈ g.frame,
        Apart ⟨store', frame⟩ ⟨store', frame'⟩ := by
  induction ds generalizing next store fs with
  | nil =>
    cases h
    exact ⟨next, .refl _, hrec, .nil _ next, by simp, .nil⟩
  | cons d ds ih =>
    obtain ⟨⟨f, store₁, next₁⟩, hf, h⟩ := except_ok h
    obtain ⟨⟨gs, store₂⟩, hgs, h⟩ := except_ok h
    cases h
    have hf := buildFunction_ok hs hrec (mapError_eq_ok_iff.mp hf)
    obtain ⟨last, hext, hrec', hlocals, hres, hpair⟩ := ih hf.recorded hgs
    -- the first function is still as it was when the later ones are there
    have hfirst : ∀ frame ∈ f.frame,
        Resides store store₁ (globals.map Prod.snd) ⟨store', frame⟩ := by
      intro frame hframe
      have hr := hf.resides frame hframe
      apply hr.undisturbed (hext.undisturbed _ _)
      · intro k hk
        exact (hr.mem_layout hk).2
      · intro id hid
        exact (hr.mem_placedInstrs.mp hid).2
    refine ⟨last, hf.tables.trans hext, hrec', ?_, ?_, ?_⟩
    · rw [List.flatMap_cons]
      exact hf.locals.append hlocals
    · intro g hg frame hframe
      rcases List.mem_cons.mp hg with rfl | hg
      · exact ⟨store, store₁, .refl store, hext, hfirst frame hframe⟩
      · obtain ⟨s, s', hs, hs', hr⟩ := hres g hg frame hframe
        exact ⟨s, s', hf.tables.trans hs, hs', hr⟩
    · refine List.pairwise_cons.mpr ⟨?_, hpair⟩
      intro g hg frame hframe frame' hframe'
      obtain ⟨s, s', hs, -, hr⟩ := hres g hg frame' hframe'
      exact (hfirst frame hframe).apart hr hs

end Loading

open Loading in
theorem Description.loaded {d : Description} {s : Shader} (h : d.toShader = .ok s) : s.Loaded := by
  obtain ⟨u, -, h⟩ := except_ok h
  obtain ⟨structs, hstructs, h⟩ := except_ok h
  obtain ⟨⟨next, globals⟩, hglobals, h⟩ := except_ok h
  obtain ⟨⟨functions, store⟩, hfunctions, h⟩ := except_ok h
  cases h
  have hcomplete := declareStructs_complete (by simp) hstructs
  have hdeclared := declareGlobals_ok hcomplete (.nil _ 1) hglobals
  obtain ⟨last, -, hrec, hlocals, hres, hpair⟩ :=
    buildFunctions_ok hcomplete (by simp [Store.Recorded]) hfunctions
  have hmem : ∀ i b, (Shader.mk d.shader (globals.reverse.map Prod.snd).toArray functions.toArray
      store).body? i = some b → ∃ f frame, functions[i]? = some f ∧ f.frame = some frame ∧
        b = ⟨store, frame⟩ := by
    intro i b hb
    obtain ⟨frame, hframe, rfl⟩ := Option.map_eq_some_iff.mp hb
    obtain ⟨f, hf, hff⟩ := Option.bind_eq_some_iff.mp hframe
    exact ⟨f, frame, by simpa using hf, hff, rfl⟩
  refine ⟨?_, ?_, ?_, ?_, hrec, ?_, ?_⟩
  · rw [Shader.variables, hdeclared.append_ids hlocals]
    exact List.Nodup.map (fun a b hab => Int.ofNat.inj hab) List.nodup_range'
  · intro v hv
    exact hdeclared.modes v (by simpa using hv)
  · intro f hf v hv
    exact hlocals.modes v (List.mem_flatMap.mpr ⟨f, by simpa using hf, hv⟩)
  · intro v hv
    rcases List.mem_append.mp hv with hv | hv
    · exact hdeclared.types v hv
    · exact hlocals.types v hv
  · intro i b hb
    obtain ⟨f, frame, hf, hframe, rfl⟩ := hmem i b hb
    obtain ⟨s, s', -, hs', hr⟩ := hres f (List.mem_of_getElem? hf) frame hframe
    refine ⟨s, s', hs', { hr with roots := fun l hl v hv => ?_ }⟩
    simpa using hr.roots l hl v hv
  · intro i j b c hij hb hc
    obtain ⟨f, frame, hf, hframe, rfl⟩ := hmem i b hb
    obtain ⟨g, frame', hg, hframe', rfl⟩ := hmem j c hc
    obtain ⟨hi, rfl⟩ := List.getElem?_eq_some_iff.mp hf
    obtain ⟨hj, rfl⟩ := List.getElem?_eq_some_iff.mp hg
    rw [List.pairwise_iff_getElem] at hpair
    by_cases hlt : i < j
    · exact hpair i j hi hj hlt frame hframe frame' hframe'
    · exact (hpair j i hj hi (by omega) frame' hframe' frame hframe).symm

structure Body.Coherent (globals : List Variable) (b : Body) : Prop where
  /-- A link is no cast, and it stands behind its parent and has its type from it. -/
  links : ∀ (n : Nat) (l : Link), b.links[n]? = some l → l.kind ≠ .cast ∧ l.Fits b.links n
  /-- A link has the mode of the variable that its chain starts at. -/
  roots : ∀ (n : Nat) (l : Link), b.links[n]? = some l →
    ∃ v, rootVariable? (chain b.links (some n)) = some v ∧ (v ∈ b.locals ∨ v ∈ globals) ∧
      l.mode = v.mode ∧ (l.mode = .local ↔ v ∈ b.locals)
  /-- An instruction stands at one place, in the block that it knows. -/
  once : b.placedInstrs.Nodup
  home : ∀ k ∈ b.layout, ∀ id ∈ b.held k, b.instrs[id]?.bind (·.block) = some k
  /-- Every number below the counter belongs to one definition. -/
  defined : ∀ n < b.valueCount, ∃! id, id ∈ b.placedInstrs ∧
    ∃ v, b.defined? id = some v ∧ v.index = n
  /-- A value knows the instruction that defines it. -/
  results : ∀ id ∈ b.placedInstrs, ∀ v, b.defined? id = some v →
    v.index < b.valueCount ∧ b.definer? v = some id
  /-- What an instruction reads was defined earlier in its block or in a block before it. -/
  reads : ∀ pre id post, b.placedInstrs = pre ++ id :: post → ∀ op, b.op? id = some op →
    ∀ v ∈ b.uses op, ∃ d ∈ pre, b.defined? d = some v
  loads : ∀ id ∈ b.placedInstrs, ∀ h dest n, b.op? id = some (.load h dest n) →
    Loads (derefType b.links h) dest n
  ordered : b.Ordered

namespace LoadedBody

variable {first last serials : Nat} {vars : List Variable} {b : Body}

theorem definition_unique (h : LoadedBody first last serials vars b) {id id' : Nat}
    (hid : id ∈ b.placedInstrs) (hid' : id' ∈ b.placedInstrs) {v v' : Value}
    (hv : b.defined? id = some v) (hv' : b.defined? id' = some v') (hindex : v.index = v'.index) :
    id = id' := by
  rw [h.mem_placedInstrs] at hid hid'
  obtain ⟨hserial, -, hdef⟩ := h.results id hid.1 hid.2 v hv
  obtain ⟨hserial', -, hdef'⟩ := h.results id' hid'.1 hid'.2 v' hv'
  have hsame : v.serial = v'.serial := by omega
  rw [Body.definer?, hsame] at hdef
  exact Option.some.inj (hdef.symm.trans hdef')

theorem mem_front (h : LoadedBody first last serials vars b) {pre post : List InstrId} {d id : Nat}
    (hsplit : b.placedInstrs = pre ++ id :: post) (hd : first ≤ d) (hlt : d < id) : d ∈ pre := by
  have hid : id ∈ b.placedInstrs := by
    rw [hsplit]
    exact List.mem_append_right _ (.head _)
  have hmem : d ∈ b.placedInstrs := by
    rw [h.mem_placedInstrs] at hid ⊢
    omega
  have hsorted : (pre ++ id :: post).Pairwise (· < ·) := by
    rw [← hsplit, h.placed]
    exact List.pairwise_lt_range'
  rw [hsplit, List.mem_append, List.mem_cons] at hmem
  rcases hmem with hmem | rfl | hmem
  · exact hmem
  · exact absurd hlt (Nat.lt_irrefl _)
  · have hgt := List.rel_of_pairwise_cons (List.pairwise_append.mp hsorted).2.1 hmem
    exact absurd hlt (Nat.lt_asymm hgt)

end LoadedBody

theorem Resides.coherent {store store' : Store} {globals : List Variable} {b : Body}
    (h : Resides store store' globals b) (hlocals : ∀ v ∈ b.locals, v.mode = .local)
    (hglobals : ∀ v ∈ globals, v.mode ≠ .local) : b.Coherent globals where
  links n l hl := ⟨h.castless l (Array.mem_of_getElem? hl), h.built.fits n l hl⟩
  roots n l hl := by
    obtain ⟨v, hroot, hmode, r, hr, hrv⟩ := h.built.exists_root h.castless hl
    have hv := h.roots r hr v hrv
    rw [List.mem_append, Array.mem_toList_iff] at hv
    refine ⟨v, hroot, hv, hmode, ?_⟩
    rw [hmode]
    constructor
    · intro hv'
      exact hv.resolve_right fun hg => hglobals v hg hv'
    · exact hlocals v
  once := by
    rw [h.placed]
    exact List.nodup_range'
  home := h.home
  defined n hn := by
    obtain ⟨id, v, hid, hlt, hv, hindex⟩ := h.defined n hn
    have hmem := h.mem_placedInstrs.mpr ⟨hid, hlt⟩
    refine ⟨id, ⟨hmem, v, hv, hindex⟩, ?_⟩
    rintro id' ⟨hmem', v', hv', hindex'⟩
    exact h.definition_unique hmem' hmem hv' hv (hindex'.trans hindex.symm)
  results id hid v hv := by
    rw [h.mem_placedInstrs] at hid
    exact (h.results id hid.1 hid.2 v hv).2
  reads pre id post hsplit op hop v hv := by
    have hid : id ∈ b.placedInstrs := by
      rw [hsplit]
      exact List.mem_append_right _ (.head _)
    rw [h.mem_placedInstrs] at hid
    obtain ⟨d, hd, hlt, hdef⟩ := (h.grounded id hid.1 hid.2 op hop).uses hv
    exact ⟨d, h.mem_front hsplit hd hlt, hdef⟩
  loads id hid x dest n hop := by
    rw [h.mem_placedInstrs] at hid
    exact (h.grounded id hid.1 hid.2 _ hop).load x dest n rfl
  ordered := h.ordered

/-- Every shader that the loader makes has variables with numbers of their own and functions in
good order. -/
theorem toShader_coherent (d : Description) (s : Shader) (h : d.toShader = .ok s) :
    (s.variables.map (·.id)).Nodup ∧ ∀ i b, s.body? i = some b → b.Coherent s.globals.toList := by
  have hs := Description.loaded h
  refine ⟨hs.ids, fun i b hb => ?_⟩
  obtain ⟨store, store', -, hr⟩ := hs.resides i b hb
  apply hr.coherent
  · intro v hv
    exact hs.local_mode hb hv
  · intro v hv
    exact hs.globals v (Array.mem_toList_iff.mp hv)

def palette : Description where
  format := "1.0"
  shader := "palette"
  structs := [⟨"P", [{ name := "x", type := "float[2]" }, { name := "y", type := "vec3" }]⟩]
  globals := [{ name := "g", type := "P[2]" }, { name := "u", type := "uint", mode := "uniform" }]
  functions :=
    [⟨"main", [{ name := "a", type := "P[2]" }],
        [⟨"entry", ["exit", "b1"],
            [{ op := "copy", dst := "a", src := "g" },
              { op := "load", result := "i", deref := "u" }]⟩,
          ⟨"", ["exit"], [{ op := "load", result := "v", deref := "a[i].x[1]" }]⟩,
          ⟨"exit", [], [{ op := "store", deref := "g[0].x[0]", value := "7" }]⟩]⟩,
      ⟨"sink", [], []⟩,
      -- the local hides the global of its name
      ⟨"shade", [{ name := "g", type := "vec3" }],
        [⟨"only", [],
          [{ op := "load", result := "w", deref := "g" },
            { op := "store", deref := "g", value := "w" }]⟩]⟩]

theorem palette_coherent : ∃ s b c, palette.toShader = .ok s ∧ s.body? 0 = some b ∧
    s.body? 2 = some c ∧ b.placedInstrs = [0, 1, 2, 3, 4, 5, 6, 7] ∧ c.placedInstrs = [8, 9] ∧
    (s.variables.map (·.id)).Nodup ∧ b.Coherent s.globals.toList ∧ c.Coherent s.globals.toList := by
  have hload : (palette.toShader.toOption.bind fun s => (s.body? 0).bind fun b =>
      (s.body? 2).map fun c => (b.placedInstrs, c.placedInstrs)) =
        some ([0, 1, 2, 3, 4, 5, 6, 7], [8, 9]) := by
    decide +kernel
  obtain ⟨s, hs, hbodies⟩ := Option.bind_eq_some_iff.mp hload
  obtain ⟨b, hb, hbodies⟩ := Option.bind_eq_some_iff.mp hbodies
  obtain ⟨c, hc, hplaced⟩ := Option.map_eq_some_iff.mp hbodies
  have hok := ok_of_toOption hs
  have hcoherent := toShader_coherent palette s hok
  exact ⟨s, b, c, hok, hb, hc, congrArg Prod.fst hplaced, congrArg Prod.snd hplaced,
    hcoherent.1, hcoherent.2 0 b hb, hcoherent.2 2 c hc⟩

end ShaderIR

import FactGuard.Proofs.Fact.Locality
import FactGuard.Proofs.Site.Contiguity

/-!
# Guards keep facts

The instructions of the pieces of a block are those of the block, with other labels in phis, and
those of guards, which define new names (`Divided.filter_instrs`). Pieces are visited in place of
their block, so a sweep over a guarded function infers for the names of the function what a sweep
over the function does, as far as control can reach (`Function.Guarded.same_sweep`). So no guard
that can be passed changes a fact there (`Session.instrument_keeps_facts`).
-/

namespace FactGuard

/-- The instruction defines none of the names. -/
def Instr.avoids (names : List String) (instr : Instr) : Bool :=
  instr.dest?.all fun dest => !names.contains dest

theorem Instr.avoids_eq_false_iff {names : List String} {instr : Instr} :
    instr.avoids names = false ↔ ∃ name ∈ names, instr.dest? = some name := by
  unfold avoids
  cases instr.dest? <;> simp

/-- What is defined by the instructions that define none of some names. -/
theorem Instr.filterMap_dest?_filter (names : List String) (instrs : List Instr) :
    (instrs.filter (avoids names)).filterMap dest?
      = (instrs.filterMap dest?).filter fun dest => !names.contains dest := by
  rw [List.filterMap_filter, List.filter_filterMap]
  refine List.filterMap_congr fun instr _ => ?_
  unfold avoids
  cases instr.dest? with
  | none => simp
  | some dest => simp [Option.filter]

/-- The instructions of all pieces without those of the guards are the instructions of the block. -/
theorem Divided.filter_instrs {trap label : String} {temps : List String} {terminator : Terminator}
    {start : Nat} {calls : List (Finding × Condition)} {instrs : List Instr} {pieces : List Block}
    {last : Block} (h : Divided trap temps terminator label start calls instrs pieces last)
    (hinstrs : ∀ instr ∈ instrs, instr.avoids temps = true) :
    ((pieces ++ [last]).flatMap (·.instrs)).filter (Instr.avoids temps) = instrs := by
  -- By induction on the pieces: the instructions of a guard define its locals, and so none is left.
  induction h with
  | last label start instrs => simpa using hinstrs
  | @guard label next start call calls slice extra rest guarded exit pieces last _ _ _ hextra _ _
      ih =>
    obtain ⟨hslice, hrest⟩ := List.forall_mem_append.1 hinstrs
    obtain ⟨hguarded, hrest⟩ := List.forall_mem_cons.1 hrest
    have hnone : extra.filter (Instr.avoids temps) = [] := by
      refine List.filter_eq_nil_iff.2 fun instr hinstr => ?_
      rw [Bool.not_eq_true, Instr.avoids_eq_false_iff]
      exact (hextra instr hinstr).2
    rw [List.cons_append, List.flatMap_cons, List.filter_append, ih hrest, List.filter_append,
      List.filter_cons_of_pos hguarded, hnone, List.filter_eq_self.2 hslice, List.append_assoc,
      List.singleton_append]

namespace Function

/-- The names that instructions mention are declared. -/
def Declares (f : Function) : Prop :=
  ∀ block ∈ f.blocks, ∀ instr ∈ block.instrs, ∀ name ∈ instr.names, name ∈ f.declarations.names

variable {f g : Function} {calls : List (Finding × Condition)} {trap : String}
  {temps : Bindings Ty} {chain : String → Chain}

/-- Blocks that the walk comes to are blocks of the function. -/
theorem mem_of_mem_reached {block : Block} (h : block ∈ f.reached) : block ∈ f.blocks := by
  obtain ⟨i, -, hblock⟩ := List.mem_filterMap.1 h
  exact List.mem_of_getElem? hblock

namespace Guarded

/-! ## Definitions -/

/-- The instructions of the pieces of blocks, without those of the guards. -/
theorem filter_flatMap (h : f.Guarded calls trap temps chain g) (hdecl : f.Declares)
    {blocks : List Block} (hblocks : ∀ block ∈ blocks, block ∈ f.blocks) :
    ((blocks.flatMap fun block => (chain block.label).blocks).flatMap (·.instrs)).filter
        (Instr.avoids temps.names)
      = blocks.flatMap fun block =>
          block.instrs.map (Instr.relabel (f.arrival chain block.label)) := by
  rw [List.flatMap_assoc, List.filter_flatMap]
  refine List.flatMap_congr fun block hblock => ?_
  have hmem := hblocks block hblock
  refine (h.divided block hmem).filter_instrs fun instr hinstr => ?_
  obtain ⟨old, hold, rfl⟩ := List.mem_map.1 hinstr
  by_contra hnot
  obtain ⟨name, htemp, hdest⟩ := Instr.avoids_eq_false_iff.1 (Bool.not_eq_true _ ▸ hnot)
  -- What an instruction of the block defines is declared, so it is no new name.
  rw [Instr.dest?_relabel] at hdest
  exact h.temps_not_mem name htemp (hdecl block hmem old hold name (by simp [Instr.names, hdest]))

/-- The pieces of blocks define a name of the function as often as the blocks do. -/
theorem count_dests (h : f.Guarded calls trap temps chain g) (hdecl : f.Declares)
    {blocks : List Block} (hblocks : ∀ block ∈ blocks, block ∈ f.blocks) {name : String}
    (hname : name ∈ f.declarations.names) :
    (((blocks.flatMap fun block => (chain block.label).blocks).flatMap (·.instrs)).filterMap
        Instr.dest?).count name
      = ((blocks.flatMap (·.instrs)).filterMap Instr.dest?).count name := by
  have hkept : (!temps.names.contains name) = true := by
    simpa using fun htemp => h.temps_not_mem name htemp hname
  have hdests : (blocks.flatMap fun block =>
      block.instrs.map (Instr.relabel (f.arrival chain block.label))).filterMap Instr.dest?
        = (blocks.flatMap (·.instrs)).filterMap Instr.dest? := by
    simp [List.filterMap_flatMap, List.filterMap_map]
  rw [← List.count_filter (p := fun dest => !temps.names.contains dest) hkept,
    ← Instr.filterMap_dest?_filter, h.filter_flatMap hdecl hblocks, hdests]

/-- A name of the function is defined as often as before. -/
theorem count_definedNames (h : f.Guarded calls trap temps chain g) (hdecl : f.Declares)
    {name : String} (hname : name ∈ f.declarations.names) :
    g.definedNames.count name = f.definedNames.count name := by
  have hperm := (h.blocks_perm.flatMap_right (·.instrs)).filterMap Instr.dest?
  have htrap : [trapBlock trap].flatMap (·.instrs) = [.call none trapCallee [] false] := rfl
  rw [List.flatMap_append, List.filterMap_append, htrap] at hperm
  calc g.definedNames.count name
      = _ := hperm.count_eq name
    _ = f.definedNames.count name := by
        rw [List.count_append, h.count_dests hdecl (fun _ hblock => hblock) hname]
        rfl

/-! ## Facts -/

/-- The new locals are no names of the function, so these have the types that they had. -/
theorem last?_declarations (h : f.Guarded calls trap temps chain g) {name : String}
    (hname : name ∈ f.declarations.names) :
    g.declarations.last? name = f.declarations.last? name := by
  have hnone : temps.last? name = none :=
    (Bindings.last?_eq_none_iff temps name).2 fun htemp => h.temps_not_mem name htemp hname
  rw [h.declarations_eq, Bindings.last?, List.foldl_append, Bindings.foldl_last?_eq, hnone]
  rfl

/-- The trap block has nothing to infer, so a sweep can do without it. -/
theorem foldl_reachedInstrs (h : f.Guarded calls trap temps chain g) (m : FactMap) :
    g.reachedInstrs.foldl FactMap.visitInstr m
      = ((g.reached.filter fun block => block.label != trap).flatMap (·.instrs)).foldl
          FactMap.visitInstr m := by
  unfold reachedInstrs
  rw [List.foldl_flatMap, List.foldl_flatMap, List.foldl_filter]
  refine List.foldl_ext _ _ _ fun m block hblock => ?_
  by_cases hlabel : block.label = trap
  · rw [eq_of_label_eq h.labels_nodup (mem_of_mem_reached hblock) h.trap_mem hlabel]
    simp [trapBlock, FactMap.visitInstr, Instr.dest?]
  · simp [hlabel]

/-- A sweep over what control can reach infers for the names of the function what it infers without
guards. -/
theorem same_sweep (h : f.Guarded calls trap temps chain g) (hf : f.Linked) (hdecl : f.Declares)
    (hnever : ∀ call ∈ calls, call.2 ≠ .always) (hpos : 0 < f.blocks.length) :
    FactMap.Same f.declarations.names
      (f.reachedInstrs.foldl FactMap.visitInstr ⟨f.declarations, []⟩)
      (g.reachedInstrs.foldl FactMap.visitInstr ⟨g.declarations, []⟩) := by
  have hstart : FactMap.Same f.declarations.names ⟨f.declarations, []⟩ ⟨g.declarations, []⟩ :=
    ⟨fun name hname => h.last?_declarations hname, fun _ _ => rfl⟩
  have hfilter := h.filter_flatMap hdecl fun _ => mem_of_mem_reached
  have hrelabel : f.reachedInstrs.foldl FactMap.visitInstr ⟨f.declarations, []⟩
      = (f.reached.flatMap fun block => block.instrs.map
          (Instr.relabel (f.arrival chain block.label))).foldl FactMap.visitInstr
            ⟨f.declarations, []⟩ := by
    unfold reachedInstrs
    simp [List.foldl_flatMap, List.foldl_map]
  rw [hrelabel, h.foldl_reachedInstrs, h.reached_eq hf hnever hpos, ← hfilter]
  refine hstart.sweep (fun instr hinstr hkept name hname => ?_) fun instr _ hother name hname => ?_
  · -- What is kept are instructions of the function.
    have hmem := List.mem_filter.2 ⟨hinstr, hkept⟩
    rw [hfilter] at hmem
    obtain ⟨block, hblock, hmem⟩ := List.mem_flatMap.1 hmem
    obtain ⟨old, hold, rfl⟩ := List.mem_map.1 hmem
    rw [Instr.names_relabel] at hname
    exact hdecl block (mem_of_mem_reached hblock) old hold name hname
  · obtain ⟨temp, htemp, hdest⟩ := Instr.avoids_eq_false_iff.1 hother
    rw [hdest]
    rintro ⟨⟩
    exact h.temps_not_mem _ htemp hname

/-- The fact of a name that is defined once, in a block that control can reach, is the same as
without guards. -/
theorem get?_facts (h : f.Guarded calls trap temps chain g) (hf : f.Linked) (hdecl : f.Declares)
    (hnever : ∀ call ∈ calls, call.2 ≠ .always) {block : Block} (hblock : f.Reaches block)
    {name : String} (hname : name ∈ block.instrs.filterMap Instr.dest?)
    (hdefs : f.definedNames.count name ≤ 1) : g.facts.get? name = f.facts.get? name := by
  have hpos : 0 < f.blocks.length := List.length_pos_of_mem hblock.mem
  have hpos' : 0 < g.blocks.length := List.length_pos_of_mem h.trap_mem
  have hdeclared : name ∈ f.declarations.names := by
    obtain ⟨instr, hinstr, hdest⟩ := List.mem_filterMap.1 hname
    exact hdecl block hblock.mem instr hinstr name (by simp [Instr.names, hdest])
  have hreached := hblock.mem_reachedInstrs hf.labels_nodup hname
  have hreached' : name ∈ g.reachedInstrs.filterMap Instr.dest? := by
    have hpieces := List.count_pos_iff.2 hreached
    unfold reachedInstrs at hpieces
    rw [← h.count_dests hdecl (fun _ => mem_of_mem_reached) hdeclared, List.count_pos_iff,
      ← h.reached_eq hf hnever hpos] at hpieces
    obtain ⟨instr, hinstr, hdest⟩ := List.mem_filterMap.1 hpieces
    obtain ⟨piece, hpiece, hinstr⟩ := List.mem_flatMap.1 hinstr
    exact List.mem_filterMap.2
      ⟨instr, List.mem_flatMap.2 ⟨piece, (List.mem_filter.1 hpiece).1, hinstr⟩, hdest⟩
  have hdefs' : g.definedNames.count name ≤ 1 := by rwa [h.count_definedNames hdecl hdeclared]
  calc g.facts.get? name
      = (g.reachedInstrs.foldl FactMap.visitInstr ⟨g.declarations, []⟩).get? name :=
        get?_facts_of_count_le_one hdefs' hpos' hreached'
    _ = (f.reachedInstrs.foldl FactMap.visitInstr ⟨f.declarations, []⟩).get? name :=
        (h.same_sweep hf hdecl hnever hpos).get?_eq name hdeclared
    _ = f.facts.get? name := (get?_facts_of_count_le_one hdefs hpos hreached).symm

end Guarded

end Function

namespace Session

/-- Guards do not disturb the analysis: if guarding a function goes through, whatever is claimed of
it, and no guard always traps, then every name that is defined in a block that control can reach
keeps its fact. -/
theorem instrument_keeps_facts (session : Session) (settings : Settings) (source : FactSource)
    {f : Function} (hf : f.Linked)
    (hlabels : ∀ block ∈ f.blocks, ∀ instr ∈ block.instrs, ∀ label ∈ instr.phiLabels,
      label ∈ f.labels)
    (hdecl : f.Declares) (hdefs : f.definedNames.Nodup) {report : Report}
    (h : (session.instrument settings source f).result = .ok report)
    (hnever : report.unconditionalSites = 0) {block : Block} (hblock : f.Reaches block)
    {name : String} (hname : name ∈ block.instrs.filterMap Instr.dest?) :
    (session.instrument settings source f).subject.facts.get? name = f.facts.get? name := by
  rcases instrument_eq_ok hf.labels_nodup h with
    ⟨-, hsubject⟩ | ⟨hskip, oracle, s, hsource, -, hguards, hsubject⟩
  · rw [hsubject]
  rcases instrument_report h with ⟨hskipped, -⟩ | ⟨-, oracle', hsource', -, hreport⟩
  · rw [hskip] at hskipped
    cases hskipped
  rw [hsource] at hsource'
  cases hsource'
  obtain ⟨temps, chain, hs⟩ :=
    Splicer.exists_chained hf.labels_nodup hf.phis_first hlabels hguards
  rw [hreport] at hnever
  have hcalls : ∀ call ∈ settings.guards (f.survey oracle).findings, call.2 ≠ .always :=
    fun call hcall halways => List.countP_eq_zero.1 hnever call hcall (decide_eq_true halways)
  rw [hsubject]
  exact hs.toGuarded.get?_facts hf hdecl hcalls hblock hname
    (List.nodup_iff_count_le_one.1 hdefs name)

/-- The loop of the countdown has a guard behind the difference, which keeps its fact. -/
theorem instrument_keeps_facts_countdown :
    let done := start.instrument Settings.default (fun _ => .ok countdownOracle) countdown
    ∃ report, done.result = .ok report ∧ report.sites = 1 ∧ report.unconditionalSites = 0 ∧
      countdown.Declares ∧ done.subject.facts.get? "d" = countdown.facts.get? "d" := by
  intro done
  have hloop : countdown.Reaches ⟨"loop", [
      .phi "i" [(.place "n", "entry"), (.place "d", "loop")],
      .binary "d" .sub (.place "i") (.constant (.int 1)),
      .binary "more" .ne (.place "d") (.constant (.int 0))], .branch (.place "more") "loop" "done"⟩ :=
    .step (.entry rfl) (by decide) (by decide)
  have hdecl : countdown.Declares := countdown_valid.instr_names_mem
  exact ⟨_, rfl, rfl, rfl, hdecl, start.instrument_keeps_facts Settings.default
    (fun _ => .ok countdownOracle) countdown_valid.toLinked countdown_wellFormed.phi_labels_mem
    hdecl countdown_valid.definedNames_nodup rfl rfl hloop (by decide)⟩

end Session

end FactGuard

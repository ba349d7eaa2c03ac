import ClosureCodegen.Proofs.Allocation.Progress

/-!
# The shape that spilling forces

After some rounds the body is still a sequence of its instructions, but each of them stands in a
block of its own: loads of temporaries in front of it, and stores of what it defines behind it.  A
temporary is only needed between its load and the instruction, and a spilled variable between the
instruction and its store.  So nothing of the kind is live where a block starts, and at any one
place those that are needed are either temporaries of one block, or definitions of one instruction.

* `SpilledInstr`: an instruction with its loads and stores.
* `LiveIn.exposed`: what is live of temporaries and spilled variables is used in the same block.
* `exists_block_of_clique`: what can be needed at once.
-/

namespace ClosureCodegen
open List Instr Liveness

variable {var v : Reg} {blocks : List SpilledInstr} {n : Nat} {tail rest : Code} {k : Instr}

def Instr.reload (temp var : Reg) : Instr := ⟨.spillLoad, [.reg temp, .label var.name]⟩

def Instr.saveSpilled (var : Reg) : Instr := ⟨.spillStore, [.reg var, .label var.name]⟩

/-- A temporary that some spill makes. -/
def Reg.IsReload (r : Reg) : Prop := ∃ n cls, r = reloadTemp n cls

structure SpilledInstr where
  /-- What the instruction was in the beginning. -/
  origin : Instr
  /-- The temporaries loaded in front of it, with the variables they stand for. -/
  reloads : List (Reg × Reg)
  instr : Instr
  /-- The variables stored behind it. -/
  stores : List Reg

namespace SpilledInstr

/-- The instruction with its loads and stores. -/
def code (b : SpilledInstr) : Code :=
  b.reloads.map (fun p => .reload p.1 p.2) ++ b.instr :: b.stores.map .saveSpilled

def temps (b : SpilledInstr) : List Reg := b.reloads.map Prod.fst

def ofInstr (i : Instr) : SpilledInstr := ⟨i, [], i, []⟩

/-- Spills one more variable, with a number of temporaries made before. -/
def spill (var : Reg) (n : Nat) (b : SpilledInstr) : SpilledInstr where
  origin := b.origin
  reloads :=
    if var ∈ b.instr.uses then b.reloads ++ [(reloadTemp (n + 1) var.cls, var)] else b.reloads
  instr :=
    if var ∈ b.instr.uses then
      b.instr.mapUses fun r => if r = var then reloadTemp (n + 1) var.cls else r
    else b.instr
  stores := if var ∈ b.instr.trackedDefs then var :: b.stores else b.stores

/-- What spills keep about a block. -/
structure Sound (spilled : List Reg) (b : SpilledInstr) : Prop where
  op : b.instr.op = b.origin.op
  label : b.instr.label? = b.origin.label?
  defs : b.instr.defs = b.origin.defs
  /-- An instruction without effect has no registers. -/
  quiet : b.instr.op.effect = .none → b.instr.regs = []
  /-- In the beginning there were no temporaries. -/
  home : ∀ r ∈ b.origin.regs, ¬r.IsReload
  uses : ∀ r ∈ b.instr.trackedUses,
    r ∈ b.temps ∨ (r ∈ b.origin.trackedUses ∧ r ∉ spilled)
  nodup : (b.reloads.map Prod.snd).Nodup
  reloads : ∀ p ∈ b.reloads, p.1.IsReload ∧ p.1.cls = p.2.cls ∧ p.2 ∈ b.origin.trackedUses ∧
    p.2 ∈ spilled
  stores : ∀ u ∈ b.stores, u ∈ b.origin.trackedDefs ∧ u ∈ spilled

end SpilledInstr

def spillBlocks (var : Reg) : Nat → List SpilledInstr → List SpilledInstr
  | _, [] => []
  | n, b :: blocks =>
    b.spill var n :: spillBlocks var (if var ∈ b.instr.uses then n + 1 else n) blocks

/-- The number of temporaries made after one more spill in a list of blocks. -/
def reloadsAfter (var : Reg) : Nat → List SpilledInstr → Nat
  | n, [] => n
  | n, b :: blocks => reloadsAfter var (if var ∈ b.instr.uses then n + 1 else n) blocks

/-! ## Blocks under a spill -/

section Spill

variable {s : SpillState}

theorem spillCode_append (var : Reg) (s : SpillState) (a b : Code) :
    spillCode var s (a ++ b) =
      ((spillCode var s a).1 ++ (spillCode var (spillCode var s a).2 b).1,
        (spillCode var (spillCode var s a).2 b).2) := by
  induction a generalizing s with
  | nil => rfl
  | cons i a ih =>
    simp only [cons_append, spillCode, ih, append_assoc]

theorem spillCode_of_not_mem {code : Code}
    (h : ∀ i ∈ code, var ∉ i.uses ∧ var ∉ i.trackedDefs) : spillCode var s code = (code, s) := by
  induction code with
  | nil => rfl
  | cons i code ih =>
    obtain ⟨hu, hd⟩ := h i mem_cons_self
    have hi : spillInstr var s i = ([i], s) := by
      rw [spillInstr_of_not_mem_uses hu, storeBehind, if_neg hd]
    simp only [spillCode, hi, ih fun k hk => h k (mem_cons_of_mem i hk)]
    rfl

theorem trackedDefs_reload (temp var : Reg) (h : temp.isReserved = false) :
    (reload temp var).trackedDefs = [temp] := by
  simp [Instr.trackedDefs, Instr.defs, reload, Opcode.effect, regs, Operand.reg?, h]

namespace SpilledInstr

variable {b : SpilledInstr} {spilled : List Reg}

theorem spillCode_code (ht : var ∉ b.temps) (hs : var ∉ b.stores) :
    spillCode var s b.code = ((b.spill var s.reloads).code,
      if var ∈ b.instr.uses then
        ⟨s.reloads + 1, reloadTemp (s.reloads + 1) var.cls :: s.barred⟩ else s) := by
  have hloads : ∀ s : SpillState,
      spillCode var s (b.reloads.map fun p => reload p.1 p.2) =
        (b.reloads.map fun p => reload p.1 p.2, s) := by
    refine fun s => spillCode_of_not_mem fun i hi => ?_
    obtain ⟨p, hp, rfl⟩ := mem_map.mp hi
    refine ⟨not_mem_nil, fun hd => ht ?_⟩
    rw [show var = p.1 from mem_singleton.mp (mem_trackedDefs.mp hd).1]
    exact mem_map_of_mem hp
  have hstores : ∀ s : SpillState, spillCode var s (b.stores.map saveSpilled) =
      (b.stores.map saveSpilled, s) := by
    refine fun s => spillCode_of_not_mem fun i hi => ?_
    obtain ⟨u, hu, rfl⟩ := mem_map.mp hi
    refine ⟨fun hmem => hs ?_, not_mem_nil⟩
    rw [show var = u from mem_singleton.mp hmem]
    exact hu
  have hbehind : storeBehind var b.instr ++ b.stores.map saveSpilled =
      ((if var ∈ b.instr.trackedDefs then var :: b.stores else b.stores).map
        saveSpilled) := by
    rw [storeBehind]
    split <;> rfl
  rw [code, spillCode_append, hloads]
  simp only [spillCode]
  by_cases hu : var ∈ b.instr.uses
  · rw [spillInstr_of_mem_uses hu]
    simp only [hstores, spill, code, hu, if_true, map_append, map_cons, map_nil,
      cons_append, append_assoc, nil_append, hbehind, reload]
  · rw [spillInstr_of_not_mem_uses hu]
    simp only [hstores, spill, code, hu, if_false, cons_append, hbehind]

theorem Sound.not_mem_temps (h : b.Sound spilled) (hv : ¬var.IsReload) : var ∉ b.temps := by
  intro hmem
  obtain ⟨p, hp, rfl⟩ := mem_map.mp hmem
  exact hv (h.reloads p hp).1

theorem Sound.spill (h : b.Sound spilled) (hv : var ∉ spilled) (ht : ¬var.IsReload)
    (hr : var.isReserved = false) (n : Nat) : (b.spill var n).Sound (spilled ++ [var]) := by
  have hnew : ∀ {r : Reg}, r ∉ spilled → r ≠ var → r ∉ spilled ++ [var] := by
    intro r hr hne hmem
    rcases mem_append.mp hmem with hmem | hmem
    · exact hr hmem
    · exact hne (mem_singleton.mp hmem)
  have hstores : ∀ u ∈ (b.spill var n).stores,
      u ∈ b.origin.trackedDefs ∧ u ∈ spilled ++ [var] := by
    intro u hu
    simp only [SpilledInstr.spill] at hu
    have hold : u ∈ b.stores → u ∈ b.origin.trackedDefs ∧ u ∈ spilled ++ [var] := fun hu =>
      ⟨(h.stores u hu).1, mem_append_left _ (h.stores u hu).2⟩
    split at hu
    · next hd =>
      rcases mem_cons.mp hu with rfl | hu
      · rw [Instr.trackedDefs, h.defs] at hd
        exact ⟨hd, mem_append_right _ mem_cons_self⟩
      · exact hold hu
    · exact hold hu
  by_cases hu : var ∈ b.instr.uses
  · have hinstr : (b.spill var n).instr =
        b.instr.mapUses fun r => if r = var then reloadTemp (n + 1) var.cls else r := if_pos hu
    have hreloads : (b.spill var n).reloads = b.reloads ++ [(reloadTemp (n + 1) var.cls, var)] :=
      if_pos hu
    have hvar : var ∈ b.origin.trackedUses :=
      ((h.uses var (mem_trackedUses.mpr ⟨hu, hr⟩)).resolve_left (h.not_mem_temps ht)).1
    refine ⟨?_, ?_, ?_, ?_, h.home, ?_, ?_, ?_, hstores⟩
    · rw [hinstr, op_mapUses, h.op]; rfl
    · rw [hinstr, label?_mapUses, h.label]; rfl
    · rw [hinstr, defs_mapUses, h.defs]; rfl
    · rw [hinstr, op_mapUses, regs_mapUses]
      intro he
      simp only [he]
      exact h.quiet he
    · intro r hrmem
      rw [hinstr, mem_trackedUses, uses_mapUses, mem_map] at hrmem
      obtain ⟨⟨q, hq, rfl⟩, hres⟩ := hrmem
      rw [temps, hreloads, map_append, mem_append]
      split at hres
      · next he =>
        rw [if_pos he]
        exact .inl (.inr mem_cons_self)
      · next he =>
        rw [if_neg he]
        exact (h.uses q (mem_trackedUses.mpr ⟨hq, hres⟩)).imp .inl fun hq =>
          ⟨hq.1, hnew hq.2 he⟩
    · rw [hreloads, map_append, nodup_append]
      refine ⟨h.nodup, nodup_singleton _, ?_⟩
      rintro a ha c hc rfl
      obtain ⟨p, hp, rfl⟩ := mem_map.mp ha
      have he : p.2 = var := mem_singleton.mp hc
      exact hv (he ▸ (h.reloads p hp).2.2.2)
    · intro p hp
      rw [hreloads, mem_append, mem_singleton] at hp
      rcases hp with hp | rfl
      · obtain ⟨h₁, h₂, h₃, h₄⟩ := h.reloads p hp
        exact ⟨h₁, h₂, h₃, mem_append_left _ h₄⟩
      · exact ⟨⟨_, _, rfl⟩, rfl, hvar, mem_append_right _ mem_cons_self⟩
  · have hinstr : (b.spill var n).instr = b.instr := if_neg hu
    have hreloads : (b.spill var n).reloads = b.reloads := if_neg hu
    refine ⟨hinstr ▸ h.op, hinstr ▸ h.label, hinstr ▸ h.defs, hinstr ▸ h.quiet, h.home, ?_, ?_, ?_,
      hstores⟩
    · intro r hrmem
      rw [hinstr] at hrmem
      rw [temps, hreloads]
      refine (h.uses r hrmem).imp_right fun hq => ⟨hq.1, hnew hq.2 ?_⟩
      rintro rfl
      exact hu (mem_trackedUses.mp hrmem).1
    · rw [hreloads]
      exact h.nodup
    · intro p hp
      rw [hreloads] at hp
      obtain ⟨h₁, h₂, h₃, h₄⟩ := h.reloads p hp
      exact ⟨h₁, h₂, h₃, mem_append_left _ h₄⟩

end SpilledInstr

theorem spillCode_blocks (h : ∀ b ∈ blocks, var ∉ b.temps ∧ var ∉ b.stores) :
    (spillCode var s (blocks.flatMap SpilledInstr.code)).1 =
        (spillBlocks var s.reloads blocks).flatMap SpilledInstr.code ∧
      (spillCode var s (blocks.flatMap SpilledInstr.code)).2.reloads =
        reloadsAfter var s.reloads blocks := by
  induction blocks generalizing s with
  | nil => exact ⟨rfl, rfl⟩
  | cons b blocks ih =>
    obtain ⟨ht, hs⟩ := h b mem_cons_self
    have ih := fun s => ih (s := s) fun c hc => h c (mem_cons_of_mem b hc)
    rw [flatMap_cons, spillCode_append, SpilledInstr.spillCode_code ht hs, spillBlocks,
      flatMap_cons, (ih _).1, (ih _).2, reloadsAfter]
    simp only
    split <;> exact ⟨rfl, rfl⟩

theorem le_reloadsAfter (n : Nat) (blocks : List SpilledInstr) : n ≤ reloadsAfter var n blocks := by
  induction blocks generalizing n with
  | nil => exact Nat.le_refl n
  | cons b blocks ih =>
    refine Nat.le_trans ?_ (ih _)
    split
    · exact Nat.le_succ n
    · exact Nat.le_refl n

theorem origin_spillBlocks (n : Nat) (blocks : List SpilledInstr) :
    (spillBlocks var n blocks).map SpilledInstr.origin = blocks.map SpilledInstr.origin := by
  induction blocks generalizing n with
  | nil => rfl
  | cons b blocks ih => rw [spillBlocks, map_cons, map_cons, ih]; rfl

theorem exists_of_mem_spillBlocks {c : SpilledInstr} (h : c ∈ spillBlocks var n blocks) :
    ∃ b ∈ blocks, ∃ k ≥ n, c = b.spill var k ∧
      ∀ t ∈ c.temps, t ∈ b.temps ∨
        (t = reloadTemp (k + 1) var.cls ∧ k + 1 ≤ reloadsAfter var n blocks) := by
  induction blocks generalizing n with
  | nil => cases h
  | cons b blocks ih =>
    rcases mem_cons.mp h with rfl | h
    · refine ⟨b, mem_cons_self, n, Nat.le_refl n, rfl, fun t ht => ?_⟩
      rw [SpilledInstr.temps, SpilledInstr.spill] at ht
      simp only at ht
      split at ht
      · next hu =>
        rw [map_append, mem_append] at ht
        refine ht.imp_right fun ht => ⟨mem_singleton.mp ht, ?_⟩
        rw [reloadsAfter, if_pos hu]
        exact le_reloadsAfter (n + 1) blocks
      · exact .inl ht
    · obtain ⟨c', hc', k, hk, heq, ht⟩ := ih h
      refine ⟨c', mem_cons_of_mem b hc', k, Nat.le_trans ?_ hk, heq, ht⟩
      split
      · exact Nat.le_succ n
      · exact Nat.le_refl n

end Spill

/-! ## What a block needs from outside -/

/-- A variable that a stretch of instructions uses before it defines it. -/
inductive Exposed (v : Reg) : Code → Prop where
  | use {k : Instr} {code : Code} : v ∈ k.trackedUses → Exposed v (k :: code)
  | skip {k : Instr} {code : Code} : v ∉ k.trackedDefs → Exposed v code → Exposed v (k :: code)

/-- A variable that must not be spilled again. -/
def Pinned (spilled : List Reg) (v : Reg) : Prop := v ∈ spilled ∨ v.IsReload

theorem isReserved_of_isReload (h : v.IsReload) : v.isReserved = false := by
  obtain ⟨n, cls, rfl⟩ := h
  exact isReserved_reloadTemp n cls

theorem mem_of_exposed_saveSpilled {us : List Reg} (h : Exposed v (us.map saveSpilled)) :
    v ∈ us := by
  induction us with
  | nil => cases h
  | cons u us ih =>
    cases h with
    | use hv =>
      rw [mem_singleton.mp (mem_trackedUses.mp hv).1]
      exact mem_cons_self
    | skip _ h => exact mem_cons_of_mem u (ih h)

namespace SpilledInstr

variable {b : SpilledInstr} {spilled : List Reg}

theorem Sound.mem_temps_of_exposed (h : b.Sound spilled) (hv : Pinned spilled v)
    (he : Exposed v (b.instr :: b.stores.map .saveSpilled)) : v ∈ b.temps := by
  cases he with
  | use hu =>
    refine (h.uses v hu).resolve_right fun hmem => ?_
    rcases hv with hv | hv
    · exact hmem.2 hv
    · exact h.home v (uses_subset_regs (mem_trackedUses.mp hmem.1).1) hv
  | skip hd he =>
    rw [Instr.trackedDefs, h.defs] at hd
    exact absurd (h.stores v (mem_of_exposed_saveSpilled he)).1 hd

theorem Sound.exposed_loads (h : b.Sound spilled) (hv : Pinned spilled v)
    (done : List (Reg × Reg)) {todo : List (Reg × Reg)} (hb : b.reloads = done ++ todo)
    (he : Exposed v (todo.map (fun p => .reload p.1 p.2) ++ b.instr :: b.stores.map .saveSpilled)) :
    v ∈ done.map Prod.fst := by
  induction todo generalizing done with
  | nil =>
    have := h.mem_temps_of_exposed hv he
    rwa [temps, hb, append_nil] at this
  | cons p todo ih =>
    have hp : p ∈ b.reloads := hb ▸ mem_append_right _ mem_cons_self
    cases he with
    | use hu =>
      cases hu
    | skip hd he =>
      rw [trackedDefs_reload _ _ (isReserved_of_isReload (h.reloads p hp).1),
        mem_singleton] at hd
      have hmem := ih (done ++ [p]) (by rw [hb, append_assoc]; rfl) he
      rw [map_append, mem_append] at hmem
      exact hmem.resolve_right fun hlast => hd (mem_singleton.mp hlast)

/-- At one place of a block, the temporaries and spilled variables that are defined there or needed
behind it are all temporaries of the block, or all definitions of its instruction. -/
theorem Sound.around (h : b.Sound spilled) {front : Code} (hk : b.code = front ++ k :: tail) :
    (∀ v, Pinned spilled v → v ∈ k.trackedDefs ∨ Exposed v tail → v ∈ b.temps) ∨
      ∀ v, Pinned spilled v → v ∈ k.trackedDefs ∨ Exposed v tail → v ∈ b.origin.trackedDefs := by
  have hstore : ∀ {us : List Reg}, us ⊆ b.stores → ∀ {v}, Exposed v (us.map saveSpilled) →
      v ∈ b.origin.trackedDefs := by
    intro us hus v he
    exact (h.stores v (hus (mem_of_exposed_saveSpilled he))).1
  rcases append_eq_append_cons hk with ⟨mid, hloads, rfl⟩ | ⟨mid, rfl, hmid⟩
  · -- one of the loads
    obtain ⟨done, rest, hb, rfl, hrest⟩ := map_eq_append_iff.mp hloads
    obtain ⟨p, todo, rfl, rfl, rfl⟩ := map_eq_cons_iff.mp hrest
    have hp : p ∈ b.reloads := hb ▸ mem_append_right _ mem_cons_self
    refine .inl fun v hv hor => ?_
    rcases hor with hd | he
    · rw [trackedDefs_reload _ _ (isReserved_of_isReload (h.reloads p hp).1), mem_singleton] at hd
      exact hd ▸ mem_map_of_mem hp
    · have hmem := h.exposed_loads hv (done ++ [p]) (by rw [hb, append_assoc]; rfl) he
      rw [temps, hb]
      refine map_subset Prod.fst ?_ hmem
      exact append_subset.mpr ⟨subset_append_left _ _,
        fun x hx => mem_append_right _ (mem_singleton.mp hx ▸ mem_cons_self)⟩
  · right
    cases mid with
    | nil =>
      -- the instruction itself
      cases hmid
      refine fun v _ hv => hv.elim (fun hd => ?_) (hstore (List.Subset.refl _))
      rwa [Instr.trackedDefs, h.defs] at hd
    | cons i mid =>
      -- one of the stores
      rw [cons_append, List.cons.injEq] at hmid
      obtain ⟨us, ws, hus, rfl, hw⟩ := map_eq_append_iff.mp hmid.2
      obtain ⟨u, vs, rfl, rfl, rfl⟩ := map_eq_cons_iff.mp hw
      refine fun v _ hv => hv.elim (fun hd => absurd hd not_mem_nil) (hstore ?_)
      rw [hus]
      exact fun x hx => mem_append_right _ (mem_cons_of_mem _ hx)

theorem code_eq_cons (b : SpilledInstr) : ∃ k tail, b.code = k :: tail := by
  rw [code]
  cases b.reloads with
  | nil => exact ⟨_, _, rfl⟩
  | cons p ps => exact ⟨_, _, rfl⟩

end SpilledInstr

/-! ## Liveness of temporaries and spilled variables -/

section Live

variable {spilled : List Reg}

theorem SpilledInstr.Sound.code_of_isLabel {b : SpilledInstr} (h : b.Sound spilled)
    (hk : k ∈ b.code) (hl : k.isLabel = true) : b.code = [b.instr] ∧ k = b.instr := by
  have hlabel : k.op = .label := of_decide_eq_true hl
  rw [code, mem_append, mem_cons] at hk
  rcases hk with hk | rfl | hk
  · obtain ⟨p, _, rfl⟩ := mem_map.mp hk
    cases hlabel
  · have horigin : b.origin.op = .label := h.op ▸ hlabel
    have huses : b.origin.trackedUses = [] := by
      simp [Instr.trackedUses, Instr.uses, horigin, Opcode.effect]
    have hdefs : b.origin.trackedDefs = [] := by
      simp [Instr.trackedDefs, Instr.defs, horigin, Opcode.effect]
    have hreloads : b.reloads = [] := eq_nil_iff_forall_not_mem.mpr fun p hp => by
      have := (h.reloads p hp).2.2.1
      rw [huses] at this
      cases this
    have hstores : b.stores = [] := eq_nil_iff_forall_not_mem.mpr fun u hu => by
      have := (h.stores u hu).1
      rw [hdefs] at this
      cases this
    rw [code, hreloads, hstores]
    exact ⟨rfl, rfl⟩
  · obtain ⟨u, _, rfl⟩ := mem_map.mp hk
    cases hlabel

theorem exists_suffix_of_codeAfter? (h : ∀ b ∈ blocks, b.Sound spilled) {l : String}
    (hl : codeAfter? l (blocks.flatMap SpilledInstr.code) = some rest) :
    ∃ post, post <:+ blocks ∧ rest = post.flatMap SpilledInstr.code := by
  induction blocks with
  | nil => cases hl
  | cons b blocks ih =>
    have ih := ih fun c hc => h c (mem_cons_of_mem b hc)
    have hb := h b mem_cons_self
    rw [flatMap_cons] at hl
    by_cases hlabel : ∃ k ∈ b.code, k.isLabel = true
    · obtain ⟨k, hk, hkl⟩ := hlabel
      rw [(hb.code_of_isLabel hk hkl).1, singleton_append, codeAfter?_cons,
        Option.or_eq_some_iff] at hl
      rcases hl with hl | ⟨_, hl⟩
      · obtain ⟨post, hpost, rfl⟩ := ih hl
        exact ⟨post, hpost.trans (suffix_cons b blocks), rfl⟩
      · split at hl
        · cases hl
          exact ⟨blocks, suffix_cons b blocks, rfl⟩
        · cases hl
    · rw [codeAfter?_append_of_not_isLabel fun k hk =>
        Bool.eq_false_iff.mpr fun hkl => hlabel ⟨k, hk, hkl⟩] at hl
      obtain ⟨post, hpost, rfl⟩ := ih hl
      exact ⟨post, hpost.trans (suffix_cons b blocks), rfl⟩

/-- Control that leaves a block comes to the start of one. -/
theorem Exposed.of_follows (h : ∀ b ∈ blocks, b.Sound spilled) {rest' : Code} {t : Transfer}
    (hf : Follows (blocks.flatMap SpilledInstr.code) rest t rest')
    (hlive : ∀ {tail : Code} {post : List SpilledInstr},
      rest' = tail ++ post.flatMap SpilledInstr.code → post <:+ blocks → Exposed v tail)
    {post : List SpilledInstr} (hrest : rest = tail ++ post.flatMap SpilledInstr.code)
    (hpost : post <:+ blocks) : Exposed v tail := by
  have hjump : ∀ {l : String},
      codeAfter? l (blocks.flatMap SpilledInstr.code) = some rest' → False := by
    intro l hl
    obtain ⟨post', hpost', hr'⟩ := exists_suffix_of_codeAfter? h hl
    have he : Exposed v [] := hlive hr' hpost'
    cases he
  cases t with
  | next => exact hlive (Eq.trans hf hrest) hpost
  | branch l => exact (hjump hf).elim
  | jump l => exact (hjump hf).elim
  | exit x => exact hf.elim

/-- A temporary or spilled variable is only live if the block that control is in uses it. -/
theorem LiveIn.exposed (h : ∀ b ∈ blocks, b.Sound spilled) (hv : Pinned spilled v)
    (hlive : LiveIn (blocks.flatMap SpilledInstr.code) v rest) {post : List SpilledInstr}
    (hrest : rest = tail ++ post.flatMap SpilledInstr.code) (hpost : post <:+ blocks) :
    Exposed v tail := by
  -- where a block starts, nothing of the kind is live
  have hstart : ∀ {i : Instr} {rest : Code}, (∀ {tail : Code} {post : List SpilledInstr},
      rest = tail ++ post.flatMap SpilledInstr.code → post <:+ blocks → Exposed v (i :: tail)) →
      ∀ {tail : Code} {post : List SpilledInstr},
        i :: rest = tail ++ post.flatMap SpilledInstr.code → post <:+ blocks → Exposed v tail := by
    intro i rest hcons tail post hr hp
    match tail, post, hr with
    | k :: tail, post, hr =>
      cases hr
      exact hcons rfl hp
    | [], b :: post, hr =>
      obtain ⟨k, tail, hcode⟩ := b.code_eq_cons
      rw [nil_append, flatMap_cons, hcode] at hr
      cases hr
      have he := hcons rfl ((suffix_cons b post).trans hp)
      have hb : Exposed v b.code := hcode ▸ he
      exact absurd ((h b (hp.mem mem_cons_self)).exposed_loads hv [] rfl hb) not_mem_nil
  induction hlive generalizing tail post with
  | use hu => exact hstart (fun _ _ => .use hu) hrest hpost
  | flow hd _ hf _ ih =>
    exact hstart (fun hr hp => .skip hd (.of_follows h hf (fun hr hp => ih hr hp) hr hp)) hrest hpost

theorem exists_block_of_suffix (h : k :: rest <:+ blocks.flatMap SpilledInstr.code) :
    ∃ b ∈ blocks, ∃ front tail post,
      b.code = front ++ k :: tail ∧ post <:+ blocks ∧
        rest = tail ++ post.flatMap SpilledInstr.code := by
  induction blocks with
  | nil => exact absurd (suffix_nil.mp h) nofun
  | cons b blocks ih =>
    obtain ⟨pre, hpre⟩ := h
    rw [flatMap_cons] at hpre
    rcases append_eq_append_cons hpre.symm with ⟨tail, hcode, hrest⟩ | ⟨mid, -, hmid⟩
    · exact ⟨b, mem_cons_self, pre, tail, blocks, hcode, suffix_cons b blocks, hrest⟩
    · obtain ⟨c, hc, front, tail, post, hcode, hpost, hrest⟩ := ih ⟨mid, hmid.symm⟩
      exact ⟨c, mem_cons_of_mem b hc, front, tail, post, hcode, hpost.trans (suffix_cons b blocks), hrest⟩

/-- The temporaries and spilled variables that an instruction needs at once are temporaries of one
block, or definitions of one instruction. -/
theorem exists_block_of_clique (h : ∀ b ∈ blocks, b.Sound spilled) {l : Liveness}
    (hl : ofCode (blocks.flatMap SpilledInstr.code) = .ok l) {p : Nat} (hp : p < l.size) :
    ∃ b ∈ blocks,
      (∀ v, Pinned spilled v → v.name ∈ l.clique v.cls p → v ∈ b.temps) ∨
      ∀ v, Pinned spilled v → v.name ∈ l.clique v.cls p → v ∈ b.origin.trackedDefs := by
  rw [size_ofCode hl] at hp
  have hk := getElem?_eq_getElem hp
  obtain ⟨hs, _⟩ := suffix_of_getElem? hk
  obtain ⟨b, hb, front, tail, post, hcode, hpost, hrest⟩ := exists_block_of_suffix hs
  -- what is in the clique is defined there or needed in the rest of the block
  have hclique : ∀ v, Pinned spilled v → v.name ∈ l.clique v.cls p →
      v ∈ (blocks.flatMap SpilledInstr.code)[p].trackedDefs ∨ Exposed v tail := by
    intro v hv hmem
    rcases mem_clique.mp hmem with hout | hdef
    · right
      obtain ⟨eqs, he, rfl⟩ := ofCode_eq_ok hl
      obtain ⟨t, rest', ht, hf, hlive⟩ :=
        LiveIn.of_liveBehind he (FlowEquations.mem_solve_iff.mp hout) hk
      exact .of_follows h hf (fun hr hp => hlive.exposed h hv hr hp) hrest hpost
    · exact .inl ((mem_defs hl hk).mp hdef)
  refine ⟨b, hb, ((h b hb).around hcode).imp (fun hall v hv hmem => ?_) fun hall v hv hmem => ?_⟩
  · exact hall v hv (hclique v hv hmem)
  · exact hall v hv (hclique v hv hmem)

end Live

/-! ## The blocks of a round -/

/-- The body in front of a round as a list of blocks. -/
structure SpillProgress.Blocks (marked : Code) (st : SpillProgress) (blocks : List SpilledInstr) :
    Prop where
  origins : blocks.map SpilledInstr.origin = marked
  code : st.code = blocks.flatMap SpilledInstr.code
  sound : ∀ b ∈ blocks, b.Sound st.spilled
  temps : ∀ b ∈ blocks, ∀ t ∈ b.temps, ∃ n ≤ st.state.reloads, ∃ cls, t = reloadTemp n cls
  disjoint : blocks.Pairwise fun a b => ∀ t ∈ a.temps, t ∉ b.temps
  /-- A temporary stands for a spilled variable of its class. -/
  known : ∀ t ∈ st.temps, t.IsReload ∧ ∃ v ∈ st.spilled, v.cls = t.cls

namespace SpillProgress.Blocks

variable {marked : Code} {st : SpillProgress}

theorem start {code : Code} (hhome : ∀ i ∈ markUnusedParams code, ∀ r ∈ i.regs, ¬r.IsReload)
    (hquiet : ∀ i ∈ markUnusedParams code, i.op.effect = .none → i.regs = []) :
    Blocks (markUnusedParams code) (.start code)
      ((markUnusedParams code).map SpilledInstr.ofInstr) where
  origins := by
    rw [map_map]
    exact map_id _
  code := by
    rw [flatMap_map]
    exact (flatMap_singleton' _).symm
  sound b hb := by
    obtain ⟨i, hi, rfl⟩ := mem_map.mp hb
    exact ⟨rfl, rfl, rfl, hquiet i hi, hhome i hi, fun r hr => .inr ⟨hr, not_mem_nil⟩,
      nodup_nil, nofun, nofun⟩
  temps b hb t ht := by
    obtain ⟨i, _, rfl⟩ := mem_map.mp hb
    cases ht
  disjoint := by
    refine pairwise_of_forall_mem_list fun a ha b _ t ht => ?_
    obtain ⟨i, _, rfl⟩ := mem_map.mp ha
    cases ht
  known := nofun

theorem pairwise_spillBlocks {m : Nat} (hmn : m ≤ n)
    (ht : ∀ b ∈ blocks, ∀ t ∈ b.temps, ∃ k ≤ m, ∃ cls, t = reloadTemp k cls)
    (h : blocks.Pairwise fun a b => ∀ t ∈ a.temps, t ∉ b.temps) :
    (spillBlocks var n blocks).Pairwise fun a b => ∀ t ∈ a.temps, t ∉ b.temps := by
  induction blocks generalizing n with
  | nil => exact .nil
  | cons b blocks ih =>
    obtain ⟨hb, h⟩ := pairwise_cons.mp h
    have hold : ∀ c ∈ b :: blocks, ∀ t ∈ c.temps, ∀ k > n, t ≠ reloadTemp k var.cls := by
      rintro c hc t htc k hk rfl
      obtain ⟨j, hj, cls, he⟩ := ht c hc _ htc
      have := reloadTemp_injective he
      omega
    rw [spillBlocks, pairwise_cons]
    refine ⟨fun c hc t htb htc => ?_, ih (Nat.le_trans hmn (by split <;> omega))
      (fun c hc => ht c (mem_cons_of_mem b hc)) h⟩
    obtain ⟨a, ha, k, hk, _, hsub⟩ := exists_of_mem_spillBlocks hc
    by_cases hu : var ∈ b.instr.uses
    · rw [SpilledInstr.temps, SpilledInstr.spill] at htb
      simp only [hu, if_true, map_append, mem_append] at htb hk
      rcases htb with htb | htb
      · rcases hsub t htc with hta | ⟨rfl, _⟩
        · exact hb a ha t htb hta
        · exact hold b mem_cons_self _ htb (k + 1) (by omega) rfl
      · have he : t = reloadTemp (n + 1) var.cls := mem_singleton.mp htb
        rcases hsub t htc with hta | ⟨he', _⟩
        · exact hold a (mem_cons_of_mem b ha) t hta (n + 1) (by omega) he
        · have := reloadTemp_injective (he.symm.trans he')
          omega
    · rw [SpilledInstr.temps, SpilledInstr.spill] at htb
      simp only [hu, if_false] at htb hk
      rcases hsub t htc with hta | ⟨rfl, _⟩
      · exact hb a ha t htb hta
      · exact hold b mem_cons_self _ htb (k + 1) (by omega) rfl

theorem spillOne (h : Blocks marked st blocks) (hv : v ∉ st.spilled) (ht : ¬v.IsReload)
    (hr : v.isReserved = false) :
    Blocks marked (st.spillOne v) (spillBlocks v st.state.reloads blocks) := by
  have hne : ∀ b ∈ blocks, v ∉ b.temps ∧ v ∉ b.stores := fun b hb =>
    ⟨(h.sound b hb).not_mem_temps ht, fun hmem => hv ((h.sound b hb).stores v hmem).2⟩
  obtain ⟨hcode, hreloads⟩ :=
    spillCode_blocks (s := ⟨st.state.reloads, v :: st.state.barred⟩) hne
  rw [← h.code] at hcode hreloads
  have hreloads : (st.spillOne v).state.reloads = reloadsAfter v st.state.reloads blocks := hreloads
  refine ⟨by rw [origin_spillBlocks, h.origins], hcode, fun c hc => ?_, fun c hc t htc => ?_,
    pairwise_spillBlocks (Nat.le_refl _) h.temps h.disjoint, fun t htm => ?_⟩
  · obtain ⟨b, hb, k, _, rfl, _⟩ := exists_of_mem_spillBlocks hc
    exact (h.sound b hb).spill hv ht hr k
  · obtain ⟨b, hb, k, _, _, hsub⟩ := exists_of_mem_spillBlocks hc
    rw [hreloads]
    rcases hsub t htc with htb | ⟨he, hle⟩
    · obtain ⟨n, hn, cls, he⟩ := h.temps b hb t htb
      exact ⟨n, Nat.le_trans hn (le_reloadsAfter _ _), cls, he⟩
    · exact ⟨k + 1, hle, v.cls, he⟩
  · rcases mem_append.mp htm with htm | htm
    · obtain ⟨hreload, w, hw, hc⟩ := h.known t htm
      exact ⟨hreload, w, mem_append_left _ hw, hc⟩
    · obtain ⟨k, rfl⟩ := exists_of_mem_reloadsOf htm
      exact ⟨⟨k, v.cls, rfl⟩, v, mem_append_right _ mem_cons_self, rfl⟩

end SpillProgress.Blocks

end ClosureCodegen

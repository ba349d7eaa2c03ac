import ClosureCodegen.Lowering.Basic
import ClosureCodegen.Proofs.Execution.Blocks

/-!
# Stretches of a body

`Runs` says that a run gets from one place of a body to another with certain events.  Stretches are
put together end to end.  The rest of the file is what single instructions do.  An instruction that
only computes a value delivers it to a register; if that is the heap pointer, the delivery is
visible.
-/

namespace ClosureCodegen
open List Machine Operation

/-! ## Control -/

namespace Instr

variable {env : Environment} {a : Word} {m : Machine}

theorem exec_branch {op : Opcode} {f : Word → Word → Bool} {r t : Reg} {l : String}
    (hop : env.test? op = some f) :
    (branch op r t l).exec env a m = some ⟨m, [.branch (f (m.get r) (m.get t))],
      if f (m.get r) (m.get t) then .branch l else .next⟩ := by
  have hd : (branch op r t l).decode? = some ⟨.branch op l, [r, t], []⟩ := by
    cases op <;> first | rfl | cases hop
  refine exec_still hd ?_
  simp only [map_cons, map_nil, perform, hop, Option.map_some]

end Instr

/-! ## Places -/

/-- A run of a body gets from one place to another. -/
def Runs (env : Environment) (code rest : Code) (m : Machine) (events : List Event) (rest' : Code)
    (m' : Machine) : Prop :=
  ∃ n, runFor (step env code) n ⟨rest, m⟩ = ⟨events, .running ⟨rest', m'⟩⟩

namespace Runs

variable {env : Environment} {code rest rest' rest'' : Code} {m m' m'' : Machine}
  {es es' : List Event} {i : Instr}

theorem refl (env : Environment) (code rest : Code) (m : Machine) :
    Runs env code rest m [] rest m := ⟨0, rfl⟩

theorem trans (h : Runs env code rest m es rest' m') (h' : Runs env code rest' m' es' rest'' m'') :
    Runs env code rest m (es ++ es') rest'' m'' := by
  obtain ⟨n, hn⟩ := h
  obtain ⟨k, hk⟩ := h'
  exact ⟨n + k, by rw [runFor_add hn k, hk]⟩

theorem of_step (h : step env code ⟨rest, m⟩ = .next es ⟨rest', m'⟩) :
    Runs env code rest m es rest' m' := by
  refine ⟨1, ?_⟩
  rw [runFor_one, h]
  rfl

theorem instr (hp : i.isParam = false) (h : i.exec env 0 m = some ⟨m', es, .next⟩) :
    Runs env code (i :: rest) m es rest m' := by
  rw [Instr.exec_arriving hp 0 (env.incoming (paramsBefore code (i :: rest)))] at h
  exact of_step (step_cons h)

theorem label (l : String) : Runs env code (.labelled l :: rest) m [] rest m :=
  instr rfl (Instr.exec_still rfl rfl)

theorem jump {l : String} (hl : codeAfter? l code = some rest') :
    Runs env code (.jump l :: rest) m [] rest' m := by
  refine of_step ((step_cons (Instr.exec_still (t := .jump l) rfl rfl)).trans ?_)
  simp only [Execution.continueIn, hl]

theorem branch {op : Opcode} {f : Word → Word → Bool} {r t : Reg} {l : String}
    (hop : env.test? op = some f)
    (hto : if f (m.get r) (m.get t) then codeAfter? l code = some rest' else rest = rest') :
    Runs env code (.branch op r t l :: rest) m [.branch (f (m.get r) (m.get t))] rest' m := by
  refine of_step ((step_cons (Instr.exec_branch hop)).trans ?_)
  split at hto
  · next ht => simp only [Execution.continueIn, ht, if_true, hto]
  · next ht =>
    rw [Bool.not_eq_true] at ht
    simp only [Execution.continueIn, ht, Bool.false_eq_true, if_false, hto]

end Runs

/-! ## Values -/

/-- What the delivery of a value to a register shows. -/
def deliveryEvents (d : Reg) (v : Word) : List Event :=
  if d = heapReg then [.heapTop v] else []

namespace Instr

variable {env : Environment} {a : Word} {m : Machine} {d r t : Reg}

theorem exec_give {i : Instr} {op : Operation} {reads : List Reg} {v : Word}
    (hd : i.decode? = some ⟨op, reads, [d]⟩)
    (hp : op.perform env a m.context (reads.map m.get) = some (m.context.give [v])) :
    i.exec env a m = some ⟨m.set d v, deliveryEvents d v, .next⟩ := by
  refine exec_eq_some.mpr ⟨_, _, hd, hp, ?_⟩
  rw [Decoded.finish, adopt_of_heap_eq rfl]
  simp only [Context.give, nil_append, mem_singleton, setAll_cons,
    setAll_nil, deliveryEvents]
  by_cases h : d = heapReg
  · subst h
    rw [if_pos rfl, if_pos rfl, get_of_ne heapReg_ne_zeroReg]
    congr 3
  · rw [if_neg (Ne.symm h), if_neg h]
    rfl

theorem exec_la (d : Reg) (l : String) :
    (la d l).exec env a m = some ⟨m.set d (env.address l), deliveryEvents d (env.address l),
      .next⟩ :=
  exec_give rfl rfl

theorem exec_unary {op : Opcode} {f : Word → Word} (hf : env.unary? op = some f) (d r : Reg) :
    (unary op d r).exec env a m = some ⟨m.set d (f (m.get r)), deliveryEvents d (f (m.get r)),
      .next⟩ := by
  have hd : (unary op d r).decode? = some ⟨.unary op, [r], [d]⟩ := by
    cases op <;> first | rfl | cases hf
  refine exec_give hd ?_
  simp only [map_cons, map_nil, perform, hf, Option.map_some]

theorem exec_binary {op : Opcode} {f : Word → Word → Word} (hf : env.binary? op = some f)
    (d r t : Reg) :
    (binary op d r t).exec env a m = some ⟨m.set d (f (m.get r) (m.get t)),
      deliveryEvents d (f (m.get r) (m.get t)), .next⟩ := by
  have hd : (binary op d r t).decode? = some ⟨.binary op, [r, t], [d]⟩ := by
    cases op <;> first | rfl | cases hf
  refine exec_give hd ?_
  simp only [map_cons, map_nil, perform, hf, Option.map_some]

theorem exec_immediate {op : Opcode} {f : Word → Word → Word} (hf : op.immediate? = some f)
    (d r : Reg) (w : Word) :
    (immediate op d r w).exec env a m = some ⟨m.set d (f (m.get r) w),
      deliveryEvents d (f (m.get r) w), .next⟩ := by
  have hd : (immediate op d r w).decode? = some ⟨.immediate op w, [r], [d]⟩ := by
    cases op <;> first | rfl | cases hf
  refine exec_give hd ?_
  simp only [map_cons, map_nil, perform, hf, Option.map_some]

theorem exec_move (d r : Reg) :
    (move d r).exec env a m = some ⟨m.set d (m.get r), deliveryEvents d (m.get r), .next⟩ := by
  rcases d with ⟨x, c⟩
  cases c <;> exact exec_unary (f := id) rfl _ r

theorem exec_load (d r : Reg) (w : Word) :
    (load d r w).exec env a m = some ⟨m.set d (m.memory (m.get r + w)),
      deliveryEvents d (m.memory (m.get r + w)), .next⟩ := by
  rcases d with ⟨x, c⟩
  cases c <;> exact exec_give rfl rfl

end Instr

/-! ## Writes and calls -/

namespace Machine

/-- Writes a word of memory. -/
def poke (m : Machine) (a v : Word) : Machine :=
  { m with memory := fun b => if b = a then v else m.memory b }

/-- Replaces the memory and the heap pointer. -/
def withHeap (m : Machine) (h : Heap) : Machine :=
  { m.set heapReg h.top with memory := h.memory }

/-- Delivers a value, if anyone needs it. -/
def deliver (m : Machine) (d? : Option Reg) (v : Word) : Machine :=
  match d? with
  | some d => m.set d v
  | none => m

end Machine

namespace CallTarget

/-- Whom a call transfers to, given the machine it is made on. -/
def callee (m : Machine) : CallTarget → Callee
  | .direct l => .function l
  | .closure r => .closure (m.get r)

end CallTarget

namespace Instr

variable {env : Environment} {a : Word} {m : Machine}

theorem exec_call {plain withResult : Opcode} {t : CallTarget} {callee : Operand}
    (hplain : plain.family = .call) (hresult : withResult.family = .callResult)
    (ht : callee = t.operand) (d? : Option Reg) (args : List Reg) :
    let outcome := env.call (t.callee m) (args.map m.get) m.heap
    (callInstr plain withResult d? callee args).exec env a m =
      some ⟨(m.withHeap outcome.2).deliver d? outcome.1, .call (t.callee m) (args.map m.get) ::
        d?.toList.flatMap fun d => deliveryEvents d outcome.1, .next⟩ := by
  intro outcome
  subst ht
  have hcallee : calleeAndArgs? t.label? ((t.reads args).map m.get) =
      some (t.callee m, args.map m.get) := by
    cases t <;> rfl
  cases d? with
  | none =>
    have hd : (callInstr plain withResult none t.operand args).decode? =
        some ⟨.call t.label? false, t.reads args, []⟩ := by
      simp only [decode?, callInstr, hplain, CallSite.targetAndArgs?_operand, Option.map_some]
    refine exec_eq_some.mpr ⟨_, m.context.invoke env (t.callee m) (args.map m.get) false, hd, ?_, rfl⟩
    simp only [perform, hcallee, Option.map_some]
  | some d =>
    have hd : (callInstr plain withResult (some d) t.operand args).decode? =
        some ⟨.call t.label? true, t.reads args, [d]⟩ := by
      simp only [decode?, callInstr, hresult, CallSite.targetAndArgs?_operand, Option.map_some]
    refine exec_eq_some.mpr ⟨_, m.context.invoke env (t.callee m) (args.map m.get) true, hd, ?_, ?_⟩
    · simp only [perform, hcallee, Option.map_some]
    · simp only [Decoded.finish, Context.invoke, if_true, setAll_cons, setAll_nil,
        mem_singleton, Option.toList_some, flatMap_cons, flatMap_nil,
        append_nil, deliveryEvents]
      by_cases h : d = heapReg
      · subst h
        rw [if_pos rfl, if_pos rfl, get_of_ne heapReg_ne_zeroReg]
        rfl
      · rw [if_neg (Ne.symm h), if_neg h]
        rfl

theorem exec_store (b r : Reg) (w : Word) :
    (store b r w).exec env a m = some ⟨m.poke (m.get b + w) (m.get r),
      [.store (m.get b + w) (m.get r)], .next⟩ := by
  have hd : (store b r w).decode? = some ⟨.store w, [b, r], []⟩ := by
    rcases r with ⟨x, c⟩
    cases c <;> rfl
  refine exec_eq_some.mpr ⟨_, m.context.write [(m.get b + w, m.get r)], hd, rfl, ?_⟩
  have hregs : (m.adopt (m.context.write [(m.get b + w, m.get r)])).regs = m.regs := by
    funext q
    rw [regs_adopt]
    split
    · next hq => exact hq ▸ get_of_ne heapReg_ne_zeroReg
    · rfl
  have hmachine : m.adopt (m.context.write [(m.get b + w, m.get r)]) =
      m.poke (m.get b + w) (m.get r) := by
    calc m.adopt (m.context.write [(m.get b + w, m.get r)])
        = ⟨(m.adopt (m.context.write [(m.get b + w, m.get r)])).regs, _, _⟩ := rfl
      _ = m.poke (m.get b + w) (m.get r) := by rw [hregs]; rfl
  rw [Decoded.finish, hmachine]
  rfl

end Instr
end ClosureCodegen

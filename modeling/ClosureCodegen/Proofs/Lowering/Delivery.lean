import ClosureCodegen.Proofs.Lowering.Records

/-!
# Deliveries in lowered code

The pieces of lowered code, each with what it shows and with what it leaves alone.  A piece writes
names that the expression binds, temporaries and the heap pointer, and nothing else, and what it
shows is what evaluating the expression shows, branches apart.

* `Reaches`: the effect of a stretch of code that has run.
* `Does`: a stretch runs to its end with an effect.
* `Delivers`: it does, and the last thing it does is to deliver a value.
-/

namespace ClosureCodegen
open List Word Machine Instr

variable {x : String} {Γ : List Binding} {ρ : Valuation} {this r d base : Reg} {vs : List Word}
  {e : Expr} {f : Reg → Instr} {a : Word} {h : Heap}

def Event.isBranch : Event → Bool
  | .branch _ => true
  | _ => false

/-- The events that do not depend on how conditionals are laid out. -/
def visible (events : List Event) : List Event := events.filter (!·.isBranch)

theorem visible_append (es es' : List Event) : visible (es ++ es') = visible es ++ visible es' :=
  filter_append _ _

/-- What the delivery of a value to a destination shows. -/
def deliveries (d? : Option Reg) (v : Word) : List Event :=
  d?.toList.flatMap fun d => deliveryEvents d v

/-- What a stretch of code does that may write certain variables, temporaries and the heap. -/
structure Reaches (bound : List String) (h : Heap) (shown : List Event) (m : Machine)
    (events : List Event) (m' : Machine) : Prop where
  heap : m'.heap = h
  events : visible events = shown
  frame : ∀ r : Reg, r ≠ heapReg → ¬Temporary r.name → r.name ∉ bound → m'.regs r = m.regs r

namespace Reaches

variable {bound bound' : List String} {h' : Heap} {shown shown' es es' : List Event}
  {m m' m'' : Machine}

theorem refl (bound : List String) (m : Machine) : Reaches bound m.heap [] m [] m :=
  ⟨rfl, rfl, fun _ _ _ _ => rfl⟩

theorem mono (hr : Reaches bound h shown m es m') (hb : ∀ x ∈ bound, x ∈ bound') :
    Reaches bound' h shown m es m' :=
  ⟨hr.heap, hr.events, fun r hh ht hn => hr.frame r hh ht fun hx => hn (hb _ hx)⟩

theorem trans (hr : Reaches bound h shown m es m') (hr' : Reaches bound' h' shown' m' es' m'') :
    Reaches (bound ++ bound') h' (shown ++ shown') m (es ++ es') m'' where
  heap := hr'.heap
  events := by rw [visible_append, hr.events, hr'.events]
  frame r hh ht hn := by
    rw [mem_append, not_or] at hn
    rw [hr'.frame r hh ht hn.2, hr.frame r hh ht hn.1]

theorem setVar (hx : isReservedName x = false) (c : RegClass) (v : Word) (m : Machine) :
    Reaches [x] m.heap [] m [] (m.set ⟨x, c⟩ v) where
  heap := heap_eq rfl (regs_set_of_ne
    (Ne.symm (Reg.ne_of_not_isReservedName hx isReserved_heapReg)) v)
  events := rfl
  frame r _ _ hn := regs_set_of_ne (fun he => hn (by simp [he])) v

theorem setTemp {t : Reg} (ht : Temporary t.name) (v : Word) (m : Machine) :
    Reaches [] m.heap [] m [] (m.set t v) where
  heap := heap_eq rfl (regs_set_of_ne
    (Ne.symm (Reg.ne_of_not_isReservedName ht.isReservedName isReserved_heapReg)) v)
  events := rfl
  frame r _ hr _ := regs_set_of_ne (fun he => hr (by rw [he]; exact ht)) v

theorem deliverVar (hr : Reaches bound h shown m es m') (hx : isReservedName x = false)
    (c? : Option RegClass) (v : Word) :
    Reaches (bound ++ [x]) h shown m (es ++ deliveries (c?.map (Reg.mk x)) v)
      (m'.deliver (c?.map (Reg.mk x)) v) := by
  cases c? with
  | none =>
    rw [show deliveries (Option.map (Reg.mk x) none) v = [] from rfl, append_nil]
    exact hr.mono fun y hy => mem_append_left _ hy
  | some c =>
    have hne : (⟨x, c⟩ : Reg) ≠ heapReg := Reg.ne_of_not_isReservedName hx isReserved_heapReg
    have hd : deliveries (Option.map (Reg.mk x) (some c)) v = [] := by
      simp [deliveries, deliveryEvents, hne]
    have hset := setVar hx c v m'
    rw [hr.heap] at hset
    have hboth := hr.trans hset
    rw [append_nil] at hboth
    rw [hd]
    exact hboth

theorem holds {xs : List String} (hr : Reaches bound h shown m es m') (hm : Holds m Γ ρ xs)
    (hx : ∀ x ∈ xs, x ∉ bound ∧ isReservedName x = false ∧ ¬Temporary x) : Holds m' Γ ρ xs := by
  intro x hmem c hc
  obtain ⟨hb, hres, ht⟩ := hx x hmem
  rw [hr.frame ⟨x, c⟩ (Reg.ne_of_not_isReservedName hres isReserved_heapReg) ht hb]
  exact hm x hmem c hc

end Reaches

/-! ## Building records -/

@[simp] theorem Heap.top_writeFields (base : Word) (h : Heap) (k : Nat) (vs : List Word) :
    (h.writeFields base k vs).top = h.top := by
  induction vs generalizing h k with
  | nil => rfl
  | cons v vs ih => rw [writeFields, ih]; rfl

theorem visible_fieldEvents (base : Word) (k : Nat) (vs : List Word) :
    visible (fieldEvents base k vs) = fieldEvents base k vs := by
  induction vs generalizing k with
  | nil => rfl
  | cons v vs ih =>
    rw [fieldEvents, visible, filter_cons_of_pos rfl]
    exact congrArg _ (ih (k + 1))

def Machine.claim (m : Machine) (this : Reg) (words : Nat) : Machine :=
  (m.set this m.heap.top).set heapReg (m.heap.top + Word.ofCount words)

theorem Machine.heap_claim (m : Machine) (this : Reg) (words : Nat) :
    (m.claim this words).heap = { m.heap with top := m.heap.top + ofCount words } := by
  have htop : (m.claim this words).get heapReg = m.heap.top + ofCount words :=
    (get_of_ne heapReg_ne_zeroReg).trans (regs_set_self _ _ _)
  rw [heap, htop]
  rfl

/-- A stretch of code runs to its end, showing something and leaving a heap. -/
def Does (env : Environment) (full : Code) (bound : List String) (code rest : Code) (m : Machine)
    (h : Heap) (shown : List Event) (m' : Machine) : Prop :=
  ∃ es, Reaches bound h shown m es m' ∧ Runs env full (code ++ rest) m es rest m'

section Records

variable {env : Environment} {full code code' rest : Code} {bound bound' : List String}
  {m m' m'' : Machine} {h' : Heap} {shown shown' : List Event}

theorem Does.trans (hd : Does env full bound code (code' ++ rest) m h shown m')
    (hd' : Does env full bound' code' rest m' h' shown' m'') :
    Does env full (bound ++ bound') (code ++ code') rest m h' (shown ++ shown') m'' := by
  obtain ⟨es, hr, hruns⟩ := hd
  obtain ⟨es', hr', hruns'⟩ := hd'
  rw [← append_assoc] at hruns
  exact ⟨es ++ es', hr.trans hr', hruns.trans hruns'⟩

theorem does_claim (hne : this ≠ heapReg) (hb : this.name ∈ bound ∨ Temporary this.name)
    (words : Nat) :
    Does env full bound (claimHeap this words) rest m
      { m.heap with top := m.heap.top + ofCount words }
      [.heapTop (m.heap.top + ofCount words)] (m.claim this words) := by
  refine ⟨_, ⟨m.heap_claim this words, rfl, fun r hh ht hn => ?_⟩, runs_claimHeap hne words⟩
  have hr : r ≠ this := by
    rintro rfl
    exact hb.elim hn ht
  rw [claim, regs_set_of_ne hh, regs_set_of_ne hr]

theorem does_fill {base : Word} {regs : List Reg} (hbase : m.get this = base)
    (hvs : regs.map m.get = vs) :
    Does env full [] (storeFields this 0 regs) rest m (m.heap.writeFields base 0 vs)
      (fieldEvents base 0 vs) { m with memory := (m.heap.writeFields base 0 vs).memory } := by
  subst hbase hvs
  refine ⟨_, ⟨?_, visible_fieldEvents _ 0 _, fun _ _ _ _ => rfl⟩, runs_storeFields this 0 regs⟩
  have htop : (m.heap.writeFields (m.get this) 0 (regs.map m.get)).top = m.get heapReg :=
    Heap.top_writeFields _ _ _ _
  exact congrArg (Heap.mk _) htop.symm

theorem get_claim (words : Nat) (hr : isReservedName r.name = false) (hne : r ≠ this) :
    (m.claim this words).get r = m.get r := by
  refine get_congr ?_
  rw [claim, regs_set_of_ne (Reg.ne_of_not_isReservedName hr isReserved_heapReg),
    regs_set_of_ne hne]

theorem get_claim_self (words : Nat) (hthis : isReservedName this.name = false) :
    (m.claim this words).get this = m.heap.top := by
  have hne : this ≠ heapReg := Reg.ne_of_not_isReservedName hthis isReserved_heapReg
  rw [claim, get_var _ _ hthis, regs_set_of_ne hne, regs_set_self]

theorem does_tuple (hthis : Temporary this.name) {fields : List Reg}
    (hfields : ∀ r ∈ fields, isReservedName r.name = false ∧ ¬Temporary r.name)
    (hvs : fields.map m.get = vs) :
    ∃ m₁, m₁.get this = m.heap.top ∧
      Does env full [] (claimHeap this fields.length ++ storeFields this 0 fields) rest m
        (m.heap.record vs) (recordEvents m.heap.top vs) m₁ := by
  have hres := hthis.isReservedName
  have hvals : fields.map (m.claim this fields.length).get = vs := by
    rw [← hvs]
    refine map_congr_left fun r hr => get_claim _ (hfields r hr).1 ?_
    rintro rfl
    exact (hfields _ hr).2 hthis
  have hlen : vs.length = fields.length := by rw [← hvs, length_map]
  have hclaim : Does env full [] (claimHeap this fields.length) (storeFields this 0 fields ++ rest)
      m _ _ _ :=
    does_claim (Reg.ne_of_not_isReservedName hres isReserved_heapReg) (.inr hthis) fields.length
  have hboth := hclaim.trans (does_fill (get_claim_self _ hres) hvals)
  rw [heap_claim] at hboth
  rw [Heap.record, recordEvents, hlen]
  refine ⟨_, ?_, hboth⟩
  exact get_claim_self (m := m) fields.length hres

theorem closureCode_eq (this entry : Reg) (label : String) (captured : List Reg) :
    closureCode this entry label captured = claimHeap this (captured.length + 1) ++
      ([.la entry label] ++ storeFields this 0 (entry :: captured)) := by
  rw [storeFields_cons]
  rfl

theorem does_closure {label : String} {entry : Reg} (hx : isReservedName x = false)
    (hxt : ¬Temporary x) (hentry : Temporary entry.name) {captured : List Reg}
    (hcaptured : ∀ r ∈ captured, isReservedName r.name = false ∧ ¬Temporary r.name)
    (hvs : captured.map (m.set (.int x) m.heap.top).get = vs) :
    ∃ m₁, m₁.regs (.int x) = m.heap.top ∧
      Does env full [x] (closureCode (.int x) entry label captured) rest m
        (m.heap.record (env.address label :: vs))
        (recordEvents m.heap.top (env.address label :: vs)) m₁ := by
  have hres := hentry.isReservedName
  have hlen : (env.address label :: vs).length = captured.length + 1 := by
    rw [← hvs, length_cons, length_map]
  have hne : (.int x : Reg) ≠ entry := fun he => hxt (by rw [← he] at hentry; exact hentry)
  have hclaim : Does env full [x] (claimHeap (.int x) (captured.length + 1))
      ([.la entry label] ++ storeFields (.int x) 0 (entry :: captured) ++ rest) m _ _ _ :=
    does_claim (Reg.ne_of_not_isReservedName hx isReserved_heapReg) (.inl mem_cons_self) _
  have hla : Does env full [] [.la entry label] (storeFields (.int x) 0 (entry :: captured) ++ rest)
      (m.claim (.int x) (captured.length + 1)) (m.claim (.int x) (captured.length + 1)).heap []
      ((m.claim (.int x) (captured.length + 1)).set entry (env.address label)) := by
    refine ⟨[], .setTemp hentry (env.address label) _, .instr rfl ?_⟩
    rw [exec_la, deliveryEvents,
      if_neg (Reg.ne_of_not_isReservedName hres isReserved_heapReg)]
  have hthis : ((m.claim (.int x) (captured.length + 1)).set entry (env.address label)).get (.int x)
      = m.heap.top := by
    rw [get_congr (regs_set_of_ne hne _)]
    exact get_claim_self _ hx
  have hvals : (entry :: captured).map
      ((m.claim (.int x) (captured.length + 1)).set entry (env.address label)).get =
        env.address label :: vs := by
    rw [map_cons, ← hvs]
    congr 1
    · exact (get_var _ _ hres).trans (regs_set_self _ _ _)
    · refine map_congr_left fun r hr => get_congr ?_
      obtain ⟨hrres, hrt⟩ := hcaptured r hr
      have hrne : r ≠ entry := by
        rintro rfl
        exact hrt hentry
      rw [regs_set_of_ne hrne, claim, regs_set_of_ne
        (Reg.ne_of_not_isReservedName hrres isReserved_heapReg)]
  have hall := hclaim.trans (hla.trans (does_fill hthis hvals))
  have hheap : ((m.claim (.int x) (captured.length + 1)).set entry (env.address label)).heap =
      { m.heap with top := m.heap.top + ofCount (captured.length + 1) } :=
    (Reaches.setTemp hentry (env.address label) _).heap.trans (m.heap_claim _ _)
  rw [hheap] at hall
  rw [Heap.record, recordEvents, hlen, closureCode_eq]
  refine ⟨_, ?_, hall⟩
  exact (get_var _ _ hx).symm.trans hthis

end Records

/-! ## Delivering values -/

/-- A stretch of code runs to its end, and the last thing it does is to deliver a value. -/
def Delivers (env : Environment) (full : Code) (bound : List String) (code rest : Code)
    (m : Machine) (d? : Option Reg) (v : Evaluation) : Prop :=
  ∃ es m', Reaches bound v.heap v.events m es m' ∧
    Runs env full (code ++ rest) m (es ++ deliveries d? v.value) rest (m'.deliver d? v.value)

section Deliveries

variable {env : Environment} {full code code' rest : Code} {bound bound' : List String}
  {m m' : Machine} {shown : List Event} {d? : Option Reg} {v : Evaluation}

theorem Delivers.mono (hd : Delivers env full bound code rest m d? v)
    (hb : ∀ x ∈ bound, x ∈ bound') : Delivers env full bound' code rest m d? v := by
  obtain ⟨es, m', hr, hruns⟩ := hd
  exact ⟨es, m', hr.mono hb, hruns⟩

theorem Does.delivers (hd : Does env full bound code (code' ++ rest) m h shown m')
    (hd' : Delivers env full bound' code' rest m' d? v) :
    Delivers env full (bound ++ bound') (code ++ code') rest m d? (v.after shown) := by
  obtain ⟨es, hr, hruns⟩ := hd
  obtain ⟨es', m'', hr', hruns'⟩ := hd'
  have hboth := hruns.trans hruns'
  rw [← append_assoc, ← append_assoc] at hboth
  exact ⟨es ++ es', m'', hr.trans hr', hboth⟩

theorem Does.nothing (hd : Does env full bound code rest m h shown m') (w : Word) :
    Delivers env full bound code rest m none ⟨w, h, shown⟩ := by
  obtain ⟨es, hr, hruns⟩ := hd
  refine ⟨es, m', hr, ?_⟩
  rw [show deliveries none w = [] from rfl, append_nil]
  exact hruns

theorem delivers_nil (m : Machine) (w : Word) :
    Delivers env full bound [] rest m none ⟨w, m.heap, []⟩ :=
  Does.nothing ⟨[], .refl bound m, .refl _ _ _ _⟩ w

theorem delivers_instr {i : Instr} {w : Word} (hp : i.isParam = false)
    (h : i.exec env 0 m = some ⟨m.set d w, deliveryEvents d w, .next⟩) :
    Delivers env full bound [i] rest m (some d) ⟨w, m.heap, []⟩ := by
  refine ⟨[], m, .refl bound m, ?_⟩
  rw [nil_append, deliveries, Option.toList_some, flatMap_cons, flatMap_nil,
    append_nil]
  exact .instr hp h

theorem Delivers.toVar {c? : Option RegClass}
    (hd : Delivers env full bound code rest m (c?.map (Reg.mk x)) v) (hx : isReservedName x = false) :
    ∃ m', (∀ c, c? = some c → m'.regs ⟨x, c⟩ = v.value) ∧
      Does env full (bound ++ [x]) code rest m v.heap v.events m' := by
  obtain ⟨es, m', hr, hruns⟩ := hd
  refine ⟨_, fun c hc => ?_, _, hr.deliverVar hx c? v.value, hruns⟩
  subst hc
  exact regs_set_self _ _ _

end Deliveries

/-! ## Single operations -/

/-- Literals that are read as they are written. -/
def NoNegativeZero (e : Expr) : Prop := ∀ v ∈ e.literals, v.isZero = true → v = .zero

theorem Expr.eval_simple (hf : e.simple? = some f) (env : Environment) (Γ : List Binding)
    (ρ : Valuation) (h : Heap) : e.eval env Γ ρ h = ⟨(e.eval env Γ ρ h).value, h, []⟩ := by
  cases e <;> first | rfl | cases hf

theorem exec_simple (hf : e.simple? = some f) {env : Environment} {m : Machine}
    (hc : HasClass Γ e (some d.cls)) (hx : ∀ x ∈ e.free, isReservedName x = false)
    (hz : NoNegativeZero e) (hm : Holds m Γ ρ e.free) :
    (f d).isParam = false ∧ (f d).exec env 0 m =
      some ⟨m.set d (e.eval env Γ ρ m.heap).value,
        deliveryEvents d (e.eval env Γ ρ m.heap).value, .next⟩ := by
  have hget : ∀ {x c}, x ∈ e.free → classIn Γ x = some c → m.get ⟨x, c⟩ = ρ x := fun hmem hcls =>
    (m.get_var _ (hx _ hmem)).trans (hm _ hmem _ hcls)
  generalize hk : some d.cls = k at hc
  cases hc with
  | int =>
    cases hf
    exact ⟨rfl, exec_give rfl rfl⟩
  | externArray =>
    cases hf
    exact ⟨rfl, exec_la d _⟩
  | @float _ v =>
    cases hf
    simp only [loadFloat]
    split
    · next hzero =>
      have hv : v = .zero := hz v mem_cons_self hzero
      have hval : (Expr.eval env (.float v) Γ ρ m.heap).value = id (m.get zeroReg) := by
        rw [hv, get_zeroReg]
        exact env.literal_zero
      rw [hval]
      exact ⟨rfl, exec_unary rfl d zeroReg⟩
    · exact ⟨rfl, exec_give rfl rfl⟩
  | @unary _ op x hcls =>
    cases hf
    have hval := hget mem_cons_self hcls
    simp only [Expr.eval, ← hval]
    exact ⟨by cases op <;> rfl, exec_unary (by cases op <;> rfl) d _⟩
  | @binary _ op x y hxc hyc =>
    cases hf
    have hvalx := hget mem_cons_self hxc
    have hvaly := hget (mem_cons_of_mem x mem_cons_self) hyc
    simp only [Expr.eval, ← hvalx, ← hvaly]
    exact ⟨by cases op <;> rfl, exec_binary (by cases op <;> rfl) d _ _⟩
  | @var _ x t ht =>
    cases hf
    have hcls : classIn Γ x = some d.cls := by rw [classIn, ht, Option.bind_some, ← hk]
    have hval := hget mem_cons_self hcls
    simp only [Expr.eval, ← hval]
    exact ⟨isParam_move _ _, exec_move d _⟩
  | _ => cases hf

/-! ## Elements and calls -/

section Elements

variable {env : Environment} {full rest : Code} {bound : List String} {m : Machine}

theorem does_store {v : Word} (hbase : m.get base = a) (hr : m.get r = v) (hheap : m.heap = h) :
    Does env full bound [.store base r 0] rest m (h.write a v) [.store a v] (m.poke a v) := by
  subst hbase hr hheap
  have hexec : (store base r 0).exec env 0 m = _ := exec_store base r 0
  rw [show m.get base + 0 = m.get base from BitVec.add_zero _] at hexec
  exact ⟨_, ⟨rfl, rfl, fun _ _ _ _ => rfl⟩, .instr (isParam_store _ _ _) hexec⟩

theorem delivers_load (hbase : m.get base = a) (hheap : m.heap = h) :
    Delivers env full bound [.load d base 0] rest m (some d) ⟨h.memory a, h, []⟩ := by
  subst hbase hheap
  have hexec : (load d base 0).exec env 0 m = _ := exec_load d base 0
  rw [show m.get base + 0 = m.get base from BitVec.add_zero _] at hexec
  exact delivers_instr (isParam_load _ _ _) hexec

theorem delivers_move {v : Word} (hr : m.get r = v) (hheap : m.heap = h) :
    Delivers env full bound [.move d r] rest m (some d) ⟨v, h, []⟩ := by
  subst hr hheap
  exact delivers_instr (isParam_move _ _) (exec_move d r)

theorem Machine.heap_withHeap (m : Machine) (h : Heap) : (m.withHeap h).heap = h := by
  have htop : (m.withHeap h).get heapReg = h.top :=
    (get_of_ne heapReg_ne_zeroReg).trans (regs_set_self m heapReg h.top)
  rw [heap, htop]
  rfl

theorem delivers_call {plain withResult : Opcode} (t : CallTarget) (hplain : plain.family = .call)
    (hresult : withResult.family = .callResult) (d? : Option Reg) {args : List Reg}
    (hvs : args.map m.get = vs) :
    Delivers env full bound [callInstr plain withResult d? t.operand args] rest m d?
      (.call env (t.callee m) vs m.heap) := by
  subst hvs
  refine ⟨[.call (t.callee m) (args.map m.get)],
    m.withHeap (env.call (t.callee m) (args.map m.get) m.heap).2,
    ⟨m.heap_withHeap _, rfl, fun r hh _ _ => regs_set_of_ne hh _⟩, ?_⟩
  have hexec : (callInstr plain withResult d? t.operand args).exec env 0 m = _ :=
    exec_call hplain hresult rfl d? args
  have hparam : ∀ {op : Opcode} (os : List Operand), op.family = .call ∨ op.family = .callResult →
      (⟨op, os⟩ : Instr).isParam = false := fun {op} os h => by
    cases op <;> first | rfl | exact absurd h (by decide)
  refine .instr ?_ hexec
  cases d? with
  | none => exact hparam _ (.inl hplain)
  | some d => exact hparam _ (.inr hresult)

end Elements

/-! ## Conditionals -/

theorem Comparison.branch_eq (cmp : Comparison) (env : Environment) (x y : String) (c : RegClass)
    (l : String) : ∃ op f r t, cmp.branch ⟨x, c⟩ ⟨y, c⟩ l = .branch op r t l ∧
      env.test? op = some f ∧ ∀ m : Machine, f (m.get r) (m.get t) =
        (cmp.holds env c (m.get ⟨x, c⟩) (m.get ⟨y, c⟩) ^^ cmp.takesElse) := by
  cases cmp <;> cases c <;>
    refine ⟨_, _, _, _, rfl, rfl, fun m => ?_⟩ <;> simp [Comparison.holds, Comparison.takesElse]

theorem Expr.eval_cond (cmp : Comparison) (x y : String) (holds fails : Expr) (env : Environment)
    {c : RegClass} (hx : classIn Γ x = some c) (ρ : Valuation) (h : Heap) :
    (Expr.cond cmp x y holds fails).eval env Γ ρ h =
      if cmp.holds env c (ρ x) (ρ y) ^^ cmp.takesElse then
        (cmp.secondArm holds fails).eval env Γ ρ h
      else (cmp.firstArm holds fails).eval env Γ ρ h := by
  rw [Expr.eval, hx, Option.getD_some, Comparison.firstArm, Comparison.secondArm]
  cases cmp.takesElse <;> cases cmp.holds env c (ρ x) (ρ y) <;> rfl

section Conditionals

variable {env : Environment} {full fall taken rest : Code} {bound : List String} {m : Machine}
  {d? : Option Reg} {v : Evaluation}

theorem Delivers.behindBranch {taken? : Bool} {code code' rest' : Code}
    (hb : Runs env full (code' ++ rest') m [.branch taken?] (code ++ rest) m)
    (hd : Delivers env full bound code rest m d? v)
    (hlead : ∀ m', Runs env full rest m' [] rest' m') :
    Delivers env full bound code' rest' m d? v := by
  obtain ⟨es, m', hr, hruns⟩ := hd
  have hall := (hb.trans hruns).trans (hlead _)
  rw [append_nil] at hall
  exact ⟨.branch taken? :: es, m', ⟨hr.heap, hr.events, hr.frame⟩, hall⟩

end Conditionals

end ClosureCodegen

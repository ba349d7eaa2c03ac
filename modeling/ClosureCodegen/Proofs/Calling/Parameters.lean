import ClosureCodegen.Proofs.Execution.Machine
import ClosureCodegen.Proofs.Names
import ClosureCodegen.Proofs.Outcome

/-!
# Where arguments arrive

A call passes its arguments in registers that depend on their classes only.  A function moves its
parameters to the registers of the same rule, if it can: the registers that its parameters had
before must be different ones.  Two parameters that share a register are moved together, and one of
them goes astray.

* `argumentRegs_congr`: the registers of a call depend on classes only.
* `paramRegs_assignParams_iff`: parameters arrive where callers put them exactly if they had
  different registers.
-/

namespace ClosureCodegen
open List Outcome PhysReg

variable {k n : Nat} {p : PhysReg} {args pre post : List Reg} {callee x t : String} {r : Reg}
  {table : List (String × String)} {params targets : List String}

/-! ## Registers of a call -/

theorem PhysReg.argument?_eq_some {cls : RegClass} (h : k < cls.argumentCount) :
    ∃ p, argument? cls k = some p ∧ p.cls = cls := by
  rw [argument?, if_pos h]
  exact ⟨_, rfl, rfl⟩

theorem PhysReg.argument?_injective {cls cls' : RegClass} {k' : Nat} (h : argument? cls k = some p)
    (h' : argument? cls' k' = some p) : cls = cls' ∧ k = k' := by
  have hall : ∀ c c' : RegClass, ∀ i < c.argumentCount, ∀ j < c'.argumentCount,
      argument? c i = argument? c' j → c = c' ∧ i = j := by
    intro c c'
    cases c <;> cases c' <;> decide
  have hlt : ∀ {c : RegClass} {i : Nat}, argument? c i = some p → i < c.argumentCount := by
    intro c i hi
    unfold argument? at hi
    split at hi
    · assumption
    · cases hi
  exact hall cls cls' k (hlt h) k' (hlt h') (h.trans h'.symm)

theorem countP_cls_cons_self (a : Reg) (args : List Reg) :
    (a :: args).countP (·.cls = a.cls) = args.countP (·.cls = a.cls) + 1 := by
  simp

/-- No more arguments of a class than there are registers for. -/
def FitsRegisters (args : List Reg) : Prop :=
  ∀ cls : RegClass, args.countP (·.cls = cls) ≤ cls.argumentCount

theorem FitsRegisters.tail {a : Reg} {args : List Reg} (h : FitsRegisters (a :: args)) :
    FitsRegisters args := fun cls =>
  Nat.le_trans (sublist_cons_self a args).countP_le (h cls)

theorem argumentRegs_cons {a : Reg} (h : FitsRegisters (a :: args)) :
    ∃ p, argument? a.cls (args.countP (·.cls = a.cls)) = some p ∧ p.cls = a.cls ∧
      argumentRegs (a :: args) = p :: argumentRegs args := by
  have hlt : args.countP (·.cls = a.cls) < a.cls.argumentCount := by
    have hcount := h a.cls
    rw [countP_cls_cons_self] at hcount
    exact hcount
  obtain ⟨p, hp, hcls⟩ := argument?_eq_some hlt
  refine ⟨p, hp, hcls, ?_⟩
  rw [argumentRegs, hp]
  rfl

theorem argumentRegs_congr {args' : List Reg} (h : args.map Reg.cls = args'.map Reg.cls) :
    argumentRegs args = argumentRegs args' := by
  have hcount : ∀ {as bs : List Reg} (c : RegClass), as.map Reg.cls = bs.map Reg.cls →
      as.countP (·.cls = c) = bs.countP (·.cls = c) := fun {as bs} c hab => by
    have hmap : ∀ rs : List Reg, rs.countP (·.cls = c) = (rs.map Reg.cls).countP (· = c) :=
      fun rs => by rw [countP_map]; rfl
    rw [hmap, hmap, hab]
  induction args generalizing args' with
  | nil => rw [map_eq_nil_iff.mp h.symm]
  | cons a args ih =>
    cases args' with
    | nil => cases h
    | cons b bs =>
      rw [map_cons, map_cons, List.cons.injEq] at h
      rw [argumentRegs, argumentRegs, h.1, hcount b.cls h.2, ih h.2]

/-- A register of a call belongs to an argument, with fewer arguments of its class behind it than
there are at all. -/
theorem exists_argument?_of_mem_argumentRegs (h : p ∈ argumentRegs args) :
    ∃ c k, k < args.countP (·.cls = c) ∧ argument? c k = some p := by
  induction args with
  | nil => cases h
  | cons a args ih =>
    rw [argumentRegs, mem_append, Option.mem_toList] at h
    rcases h with h | h
    · refine ⟨a.cls, _, ?_, h⟩
      rw [countP_cls_cons_self]
      exact Nat.lt_succ_self _
    · obtain ⟨c, k, hk, hp⟩ := ih h
      exact ⟨c, k, Nat.lt_of_lt_of_le hk (sublist_cons_self a args).countP_le, hp⟩

theorem nodup_argumentRegs (h : FitsRegisters args) : (argumentRegs args).Nodup := by
  induction args with
  | nil => exact nodup_nil
  | cons a args ih =>
    obtain ⟨p, hp, _, heq⟩ := argumentRegs_cons h
    rw [heq, nodup_cons]
    refine ⟨fun hmem => ?_, ih h.tail⟩
    obtain ⟨c, k, hk, hp'⟩ := exists_argument?_of_mem_argumentRegs hmem
    obtain ⟨rfl, rfl⟩ := argument?_injective hp hp'
    exact absurd hk (Nat.lt_irrefl _)

theorem checkArgumentCount_eq_ok {cls : RegClass} {u : Unit}
    (h : checkArgumentCount callee cls n = .ok u) : n ≤ cls.argumentCount := by
  unfold checkArgumentCount at h
  split at h
  · cases h
  · next hn => exact Nat.le_of_not_lt hn

theorem assignArgs_eq_ok (h : FitsRegisters args) (callee : String) :
    assignArgs callee args = .ok (argumentRegs args) := by
  have hcheck : ∀ cls : RegClass,
      checkArgumentCount callee cls (args.countP fun a => a.cls = cls) = .ok () := fun cls =>
    if_neg (Nat.not_lt.mpr (h cls))
  simp only [assignArgs, RegClass.all, forIn_cons, forIn_nil, hcheck]
  rfl

theorem eq_of_assignArgs_eq_ok {regs : List PhysReg} (h : assignArgs callee args = .ok regs) :
    FitsRegisters args ∧ regs = argumentRegs args := by
  have hfits : FitsRegisters args := by
    simp only [assignArgs, RegClass.all, forIn_cons, forIn_nil, bind_eq_ok] at h
    obtain ⟨_, ⟨_, ⟨_, hint, hyield⟩, hrest⟩, _⟩ := h
    cases hyield
    simp only [bind_eq_ok] at hrest
    obtain ⟨_, ⟨_, hfloat, _⟩, _⟩ := hrest
    intro cls
    cases cls with
    | int => exact checkArgumentCount_eq_ok hint
    | float => exact checkArgumentCount_eq_ok hfloat
  rw [assignArgs_eq_ok hfits] at h
  cases h
  exact ⟨hfits, rfl⟩

/-! ## Registers of parameters -/

/-- The registers of the parameters of a body, in order. -/
def paramRegs (code : Code) : List Reg := (code.filter Instr.isParam).filterMap (·.reg? 0)

theorem paramNames_eq (code : Code) (cls : RegClass) :
    paramNames code cls = ((paramRegs code).filter (·.cls = cls)).map Reg.name := by
  have hmap : ∀ rs : List Reg, rs.filterMap (fun r => if r.cls = cls then some r.name else none) =
      (rs.filter (·.cls = cls)).map Reg.name := fun rs => by
    induction rs with
    | nil => rfl
    | cons r rs ih =>
      by_cases hr : r.cls = cls
      · simp [hr, ih]
      · simp [hr, ih]
  exact hmap (paramRegs code)

/-- A register that a variable of its class can be given, or a register with a fixed role. -/
def Reg.IsPlaced (r : Reg) : Prop :=
  isReservedName r.name = true ∨ ∃ p : PhysReg, p.cls = r.cls ∧ p ∉ PhysReg.reserved ∧ r.name = p.name

theorem PhysReg.argument?_not_mem_reserved {cls : RegClass} (h : argument? cls k = some p) :
    p.cls = cls ∧ p ∉ reserved := by
  have hall : ∀ c : RegClass, ∀ i < c.argumentCount, ∀ q ∈ argument? c i, q.cls = c ∧ q ∉ reserved := by
    intro c
    cases c <;> decide
  have hlt : k < cls.argumentCount := by
    unfold argument? at h
    split at h
    · assumption
    · cases h
  exact hall cls k hlt p h

/-- A placed register of a class does not have the name of an argument register of the other. -/
theorem Reg.IsPlaced.name_ne (h : r.IsPlaced) {cls : RegClass} (hc : r.cls ≠ cls)
    (hp : argument? cls k = some p) : r.name ≠ p.name := by
  obtain ⟨hcls, hres⟩ := argument?_not_mem_reserved hp
  intro hn
  rcases h with h | ⟨q, hq, _, hname⟩
  · rw [hn, isReservedName_name] at h
    exact hres h
  · rw [hn] at hname
    rw [name_injective hname, hq] at hcls
    exact hc hcls

/-! ## The renaming of parameters -/

theorem getElem?_argumentTargets {cls : RegClass} {i : Nat} (hn : n ≤ cls.argumentCount)
    (hi : i < n) : (argumentTargets cls n)[i]? = argument? cls (n - 1 - i) := by
  have hsome : ∀ j < n, argument? cls (n - 1 - j) =
      some ⟨cls, Fin.ofNat 32 (firstArgument cls + (n - 1 - j))⟩ := fun j hj =>
    if_pos (by omega)
  have heq : argumentTargets cls n = (List.range n).map fun j =>
      ⟨cls, Fin.ofNat 32 (firstArgument cls + (n - 1 - j))⟩ := by
    rw [argumentTargets, ← filterMap_eq_map]
    exact filterMap_congr fun j hj => hsome j (mem_range.mp hj)
  rw [heq, hsome i hi, getElem?_map, getElem?_range hi]
  rfl

theorem length_argumentTargets {cls : RegClass} (hn : n ≤ cls.argumentCount) :
    n ≤ (argumentTargets cls n).length := by
  by_contra hlt
  have hlast := getElem?_argumentTargets hn (Nat.lt_of_not_le hlt)
  have hbelow : n - 1 - (argumentTargets cls n).length < cls.argumentCount := by omega
  obtain ⟨p, hp, _⟩ := argument?_eq_some hbelow
  rw [hp, getElem?_eq_none (Nat.le_refl _)] at hlast
  cases hlast

theorem mem_zip_argumentTargets (hfits : FitsRegisters (pre ++ r :: post))
    (hp : argument? r.cls (post.countP (·.cls = r.cls)) = some p) :
    let names := ((pre ++ r :: post).filter (·.cls = r.cls)).map Reg.name
    (r.name, p.name) ∈ names.zip ((argumentTargets r.cls names.length).map name) := by
  intro names
  have hnames : names = (pre.filter (·.cls = r.cls)).map Reg.name ++
      r.name :: (post.filter (·.cls = r.cls)).map Reg.name := by
    simp [names]
  have hlen : names.length = pre.countP (·.cls = r.cls) + (post.countP (·.cls = r.cls) + 1) := by
    rw [hnames, length_append, length_cons, length_map, length_map,
      countP_eq_length_filter, countP_eq_length_filter]
  have hcount : names.length ≤ r.cls.argumentCount := by
    have := hfits r.cls
    rw [countP_append, countP_cls_cons_self] at this
    omega
  refine mem_of_getElem? (i := pre.countP (·.cls = r.cls)) ?_
  rw [getElem?_zip_eq_some]
  constructor
  · rw [countP_eq_length_filter, ← length_map (f := Reg.name), hnames,
      getElem?_append_right (Nat.le_refl _), Nat.sub_self]
    rfl
  · rw [getElem?_map, getElem?_argumentTargets hcount (by omega),
      show names.length - 1 - pre.countP (·.cls = r.cls) = post.countP (·.cls = r.cls) by omega, hp]
    rfl

theorem lookup_of_mem (h : (x, t) ∈ table) (hnodup : (table.map Prod.fst).Nodup) :
    table.lookup x = some t := by
  obtain ⟨front, rest, rfl⟩ := append_of_mem h
  rw [map_append, map_cons] at hnodup
  refine lookup_eq_some_iff.mpr ⟨front, rest, rfl, fun q hq => ?_⟩
  rw [bne_iff_ne]
  rintro rfl
  exact (nodup_append.mp hnodup).2.2 _ (mem_map_of_mem hq) _ mem_cons_self rfl

theorem lookup_paramRenaming_eq_none (hp : x ∉ params) (ht : x ∉ targets) :
    (paramRenaming params targets).lookup x = none := by
  rw [lookup_eq_none_iff]
  rintro ⟨y, t⟩ hmem
  rw [bne_iff_ne]
  rintro rfl
  rw [paramRenaming, mem_append, mem_reverse, mem_reverse] at hmem
  rcases hmem with hmem | hmem
  · exact hp (of_mem_zip hmem).1
  · exact ht (mem_of_mem_filter (of_mem_zip hmem).1)

/-! ## Callers and functions agree -/

section Assign

variable {function : String} {code body : Code}

theorem paramRegs_map_mapRegs (f : Reg → Reg) (code : Code) :
    paramRegs (code.map (Instr.mapRegs f)) = (paramRegs code).map f := by
  induction code with
  | nil => rfl
  | cons i code ih =>
    have hreg : (i.mapRegs f).reg? 0 = (i.reg? 0).map f := by
      obtain ⟨op, os⟩ := i
      cases os with
      | nil => rfl
      | cons o os => cases o <;> rfl
    unfold paramRegs at ih ⊢
    cases hi : i.isParam with
    | false =>
      have hi' : (i.mapRegs f).isParam = false := hi
      rw [map_cons, filter_cons_of_neg (by simp [hi']), filter_cons_of_neg (by simp [hi]),
        ih]
    | true =>
      have hi' : (i.mapRegs f).isParam = true := hi
      rw [map_cons, filter_cons_of_pos hi', filter_cons_of_pos hi,
        filterMap_cons, filterMap_cons, ih, hreg]
      cases i.reg? 0 <;> rfl

theorem classRenaming_eq_ok {cls : RegClass} (h : classRenaming function code cls = .ok table) :
    (paramRegs code).countP (·.cls = cls) ≤ cls.argumentCount ∧
      table = paramRenaming (paramNames code cls)
        ((argumentTargets cls (paramNames code cls).length).map name) := by
  simp only [classRenaming, bind_eq_ok, pure_eq_ok] at h
  obtain ⟨_, hcount, rfl⟩ := h
  have hle := checkArgumentCount_eq_ok hcount
  rw [paramNames_eq, length_map, ← countP_eq_length_filter] at hle
  exact ⟨hle, rfl⟩

theorem moveParams_run (function : String) (code : Code) :
    (moveParams function).run.run code =
      ((MonadExcept.ofExcept (paramTable function code) >>= fun table =>
        modify (map (Instr.mapRegs (Reg.renameBy table))) : ExceptT Failure (StateM Code) Unit).run).run
        code := rfl

theorem moveParams_of_ok (h : paramTable function code = .ok table) :
    (moveParams function).run.run code = (.ok (), code.map (Instr.mapRegs (Reg.renameBy table))) := by
  rw [moveParams_run, h]
  rfl

theorem moveParams_of_error {e : Failure} (h : paramTable function code = .error e) :
    (moveParams function).run.run code = (.error e, code) := by
  rw [moveParams_run, h]
  rfl

theorem assignParams_eq (function : String) (code : Code) :
    assignParams function code =
      (do return code.map (Instr.mapRegs (Reg.renameBy (← paramTable function code)))) := by
  cases h : paramTable function code with
  | ok table => rw [assignParams, moveParams_of_ok h]; rfl
  | error e => rw [assignParams, moveParams_of_error h]; rfl

theorem assignParams_eq_ok (h : assignParams function code = .ok body) :
    FitsRegisters (paramRegs code) ∧ ∃ floats ints, classRenaming function code .float = .ok floats ∧
      classRenaming function code .int = .ok ints ∧
      body = code.map (Instr.mapRegs (Reg.renameBy (floats ++ ints))) := by
  simp only [assignParams_eq, paramTable, bind_eq_ok, pure_eq_ok] at h
  obtain ⟨_, ⟨ints, hi, floats, hf, rfl⟩, rfl⟩ := h
  refine ⟨fun cls => ?_, floats, ints, hf, hi, rfl⟩
  cases cls with
  | int => exact (classRenaming_eq_ok hi).1
  | float => exact (classRenaming_eq_ok hf).1

theorem lookup_classRenaming (hps : paramRegs code = pre ++ r :: post)
    (hfits : FitsRegisters (paramRegs code)) (hnodup : ((paramRegs code).map Reg.name).Nodup)
    (h : classRenaming function code r.cls = .ok table)
    (hp : argument? r.cls (post.countP (·.cls = r.cls)) = some p) :
    table.lookup r.name = some p.name := by
  obtain ⟨hcount, rfl⟩ := classRenaming_eq_ok h
  have hlen : (paramNames code r.cls).length ≤ r.cls.argumentCount := by
    rwa [paramNames_eq, length_map, ← countP_eq_length_filter]
  rw [paramRenaming, lookup_append, lookup_of_mem (t := p.name) (mem_reverse.mpr ?_) ?_]
  · rfl
  · rw [paramNames_eq, hps]
    exact mem_zip_argumentTargets (hps ▸ hfits) hp
  · rw [map_reverse, nodup_reverse, map_fst_zip ?_, paramNames_eq]
    · exact (filter_sublist.map _).nodup hnodup
    · rw [length_map]
      exact length_argumentTargets hlen

theorem lookup_classRenaming_eq_none {cls : RegClass} (hr : r ∈ paramRegs code)
    (hplaced : r.IsPlaced) (hc : r.cls ≠ cls) (hnodup : ((paramRegs code).map Reg.name).Nodup)
    (h : classRenaming function code cls = .ok table) : table.lookup r.name = none := by
  obtain ⟨_, rfl⟩ := classRenaming_eq_ok h
  refine lookup_paramRenaming_eq_none (fun hmem => ?_) fun hmem => ?_
  · rw [paramNames_eq, mem_map] at hmem
    obtain ⟨q, hq, hname⟩ := hmem
    rw [mem_filter, decide_eq_true_eq] at hq
    have heq : q = r := inj_on_of_nodup_map hnodup hq.1 hr hname
    exact hc (heq ▸ hq.2)
  · obtain ⟨p, hp, hname⟩ := mem_map.mp hmem
    rw [argumentTargets, mem_filterMap] at hp
    obtain ⟨k, _, hk⟩ := hp
    exact hplaced.name_ne hc hk hname.symm

theorem map_renameBy_paramRegs {floats ints : List (String × String)}
    (hfits : FitsRegisters (paramRegs code)) (hplaced : ∀ r ∈ paramRegs code, r.IsPlaced)
    (hnodup : ((paramRegs code).map Reg.name).Nodup)
    (hf : classRenaming function code .float = .ok floats)
    (hi : classRenaming function code .int = .ok ints) (hps : paramRegs code = pre ++ post) :
    post.map (Reg.renameBy (floats ++ ints)) = (argumentRegs post).map Reg.ofPhys := by
  induction post generalizing pre with
  | nil => rfl
  | cons r post ih =>
    have hr : r ∈ paramRegs code := hps ▸ mem_append_right _ mem_cons_self
    have hpost : FitsRegisters (r :: post) := fun cls =>
      Nat.le_trans (by rw [hps]; exact (sublist_append_right _ _).countP_le) (hfits cls)
    obtain ⟨p, hp, hcls, hregs⟩ := argumentRegs_cons hpost
    have hlookup : (floats ++ ints).lookup r.name = some p.name := by
      rw [lookup_append]
      cases hc : r.cls with
      | float =>
        rw [lookup_classRenaming hps hfits hnodup (hc ▸ hf) hp]
        rfl
      | int =>
        rw [lookup_classRenaming_eq_none hr (hplaced r hr) (by rw [hc]; nofun) hnodup hf,
          lookup_classRenaming hps hfits hnodup (hc ▸ hi) hp]
        rfl
    have hhead : r.renameBy (floats ++ ints) = Reg.ofPhys p := by
      rw [Reg.renameBy, hlookup, Option.getD_some, ← hcls]
      rfl
    have htail : paramRegs code = (pre ++ [r]) ++ post := by
      rw [hps, append_assoc]
      rfl
    rw [map_cons, hhead, ih htail, hregs, map_cons]

/-- The parameters of a function arrive where callers put them exactly if they had different
registers before. -/
theorem paramRegs_assignParams_iff (h : assignParams function code = .ok body)
    (hplaced : ∀ r ∈ paramRegs code, r.IsPlaced) :
    paramRegs body = (argumentRegs (paramRegs code)).map Reg.ofPhys ↔
      ((paramRegs code).map Reg.name).Nodup := by
  obtain ⟨hfits, floats, ints, hf, hi, rfl⟩ := assignParams_eq_ok h
  rw [paramRegs_map_mapRegs]
  constructor
  · intro heq
    -- registers with one name would go to one register
    have hnames : ((paramRegs code).map Reg.name).map
        (fun x => ((floats ++ ints).lookup x).getD x) =
          (argumentRegs (paramRegs code)).map name := by
      have hmap := congrArg (List.map Reg.name) heq
      rw [map_map, map_map] at hmap
      rw [map_map]
      exact hmap
    have htargets : ((argumentRegs (paramRegs code)).map name).Nodup :=
      (nodup_argumentRegs hfits).map fun _ _ => name_injective
    rw [← hnames] at htargets
    exact htargets.of_map _
  · intro hnodup
    have hall : paramRegs code = [] ++ paramRegs code := rfl
    exact map_renameBy_paramRegs hfits hplaced hnodup hf hi hall

end Assign

end ClosureCodegen

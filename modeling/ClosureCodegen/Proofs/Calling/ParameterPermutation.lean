import Mathlib.Data.Fintype.EquivFin
import Mathlib.Data.List.Perm.Basic
import ClosureCodegen.Proofs.Calling.Parameters

/-!
# Parameters are moved by a permutation

The table that moves parameters to the registers of callers gives every displaced register a place
that a parameter has vacated.  So it *shuffles* names: no name is moved twice or reached twice, and
whatever is reached is moved itself.  A shuffle of the names of registers is a permutation of the
registers, and the tables of the two classes shuffle different banks.

* `Shuffles`: tables that permute names; `shuffles_paramRenaming` and `Shuffles.append`.
* `Shuffles.exists_perm`: the permutation of the registers.
* `assignParams_permutes`: moving parameters renames by one permutation that keeps banks.
-/

namespace ClosureCodegen
open List PhysReg

/-! ## Tables that permute names -/

/-- Names are moved among themselves, no two to one name. -/
structure Shuffles (table : List (String × String)) : Prop where
  keys : (table.map Prod.fst).Nodup
  values : (table.map Prod.snd).Nodup
  closed : ∀ x ∈ table.map Prod.snd, x ∈ table.map Prod.fst

namespace Shuffles

variable {table table' : List (String × String)}

theorem append (h : Shuffles table) (h' : Shuffles table')
    (hdis : ∀ x ∈ table.map Prod.fst, x ∉ table'.map Prod.fst) : Shuffles (table ++ table') where
  keys := by
    rw [map_append]
    exact h.keys.append h'.keys fun x hx hx' => hdis x hx hx'
  values := by
    rw [map_append]
    exact h.values.append h'.values fun x hx hx' => hdis x (h.closed x hx) (h'.closed x hx')
  closed x hx := by
    rw [map_append, mem_append] at hx ⊢
    exact hx.imp (h.closed x) (h'.closed x)

theorem injective (h : Shuffles table) : Function.Injective fun x => (table.lookup x).getD x := by
  have hmem : ∀ {x a}, table.lookup x = some a → (x, a) ∈ table := fun {x a} hx => by
    obtain ⟨front, rest, rfl, _⟩ := lookup_eq_some_iff.mp hx
    exact mem_append_right _ mem_cons_self
  -- a name that is reached is moved
  have hmoved : ∀ {x a}, table.lookup x = some a → table.lookup a ≠ none := fun {x a} hx hnone => by
    obtain ⟨⟨b, c⟩, hb, rfl⟩ := mem_map.mp (h.closed a (mem_map_of_mem (hmem hx)))
    exact bne_iff_ne.mp (lookup_eq_none_iff.mp hnone _ hb) rfl
  intro x y hxy
  simp only at hxy
  cases hx : table.lookup x with
  | none =>
    cases hy : table.lookup y with
    | none => simpa [hx, hy] using hxy
    | some b =>
      rw [hx, hy, Option.getD_none, Option.getD_some] at hxy
      exact absurd (hxy ▸ hx) (hmoved hy)
  | some a =>
    cases hy : table.lookup y with
    | none =>
      rw [hx, hy, Option.getD_none, Option.getD_some] at hxy
      exact absurd (hxy ▸ hy) (hmoved hx)
    | some b =>
      rw [hx, hy, Option.getD_some, Option.getD_some] at hxy
      subst hxy
      exact congrArg Prod.fst (inj_on_of_nodup_map h.values (hmem hx) (hmem hy) rfl)

end Shuffles

theorem shuffles_paramRenaming {params targets : List String} (hp : params.Nodup)
    (ht : targets.Nodup) (hlen : params.length = targets.length) :
    Shuffles (paramRenaming params targets) := by
  -- as many names are displaced as are vacated
  have hcommon : (targets.filter (· ∈ params)).Perm (params.filter (· ∈ targets)) :=
    (perm_ext_iff_of_nodup (ht.filter _) (hp.filter _)).mpr fun x => by simp [and_comm]
  have hcount : (targets.filter (· ∉ params)).length = (params.filter (· ∉ targets)).length := by
    have h₁ := length_eq_length_filter_add (l := targets) (· ∈ params)
    have h₂ := length_eq_length_filter_add (l := params) (· ∈ targets)
    have h₃ := hcommon.length_eq
    simp only [← decide_not] at h₁ h₂
    omega
  have hkeys : (paramRenaming params targets).map Prod.fst =
      params.reverse ++ (targets.filter (· ∉ params)).reverse := by
    simp only [paramRenaming, map_append, map_reverse]
    rw [map_fst_zip hlen.le, map_fst_zip hcount.le]
  have hvalues : (paramRenaming params targets).map Prod.snd =
      targets.reverse ++ (params.filter (· ∉ targets)).reverse := by
    simp only [paramRenaming, map_append, map_reverse]
    rw [map_snd_zip hlen.ge, map_snd_zip hcount.ge]
  have happart : ∀ {as bs : List String}, as.Nodup → bs.Nodup →
      (as.reverse ++ (bs.filter (· ∉ as)).reverse).Nodup := fun ha hb =>
    (nodup_reverse.mpr ha).append (nodup_reverse.mpr (hb.filter _))
      fun x hx hx' => by simp_all
  refine ⟨hkeys ▸ happart hp ht, hvalues ▸ happart ht hp, fun x hx => ?_⟩
  rw [hvalues] at hx
  rw [hkeys]
  simp only [mem_append, mem_reverse, mem_filter, decide_eq_true_eq] at hx ⊢
  tauto

/-! ## Permutations of registers -/

def Reg.permute (σ : Equiv.Perm PhysReg) (r : Reg) : Reg :=
  { r with name := ((PhysReg.ofName? r.name).map fun p => (σ p).name).getD r.name }

theorem Shuffles.exists_perm {table : List (String × String)} (h : Shuffles table)
    (hbank : ∀ e ∈ table, ∃ p q : PhysReg, p.cls = q.cls ∧ e = (p.name, q.name)) :
    ∃ σ : Equiv.Perm PhysReg, (∀ p, (σ p).cls = p.cls) ∧
      (∀ p, table.lookup p.name = none → σ p = p) ∧ Reg.renameBy table = Reg.permute σ := by
  have : Fintype PhysReg := Fintype.ofList all mem_all
  have hkey : ∀ {x y}, table.lookup x = some y →
      ∃ p q : PhysReg, p.cls = q.cls ∧ x = p.name ∧ y = q.name := fun hx => by
    obtain ⟨front, rest, rfl, _⟩ := lookup_eq_some_iff.mp hx
    obtain ⟨p, q, hc, he⟩ := hbank _ (mem_append_right _ mem_cons_self)
    exact ⟨p, q, hc, congrArg Prod.fst he, congrArg Prod.snd he⟩
  have hmoved : ∀ p : PhysReg, ∃ q : PhysReg, q.cls = p.cls ∧
      (table.lookup p.name).getD p.name = q.name := fun p => by
    cases hp : table.lookup p.name with
    | none => exact ⟨p, rfl, rfl⟩
    | some y =>
      obtain ⟨p', q, hc, hname, rfl⟩ := hkey hp
      exact ⟨q, (name_injective hname ▸ hc).symm, rfl⟩
  choose f hcls hname using hmoved
  have hinj : Function.Injective f := fun p q hpq =>
    name_injective (h.injective (by simp only [hname, hpq]))
  let σ : Equiv.Perm PhysReg := .ofBijective f (Finite.injective_iff_bijective.mp hinj)
  refine ⟨σ, hcls, fun p hp => ?_, funext fun r => ?_⟩
  · have := hname p
    rw [hp] at this
    exact (name_injective this).symm
  · unfold Reg.renameBy Reg.permute
    cases hr : ofName? r.name with
    | some p =>
      have hrp : r.name = p.name := by
        have := find?_some hr
        exact (eq_of_beq this).symm
      rw [hrp, hname p]
      rfl
    | none =>
      cases hx : table.lookup r.name with
      | none => rfl
      | some y =>
        obtain ⟨p, _, _, hp, _⟩ := hkey hx
        rw [hp, ofName?_name] at hr
        cases hr

/-! ## The table of a function -/

theorem argumentTargets_succ (cls : RegClass) (n : Nat) :
    argumentTargets cls (n + 1) = (argument? cls n).toList ++ argumentTargets cls n := by
  have hrest : (fun i => argument? cls (n + 1 - 1 - i)) ∘ Nat.succ =
      fun i => argument? cls (n - 1 - i) :=
    funext fun i => congrArg (argument? cls) (by omega)
  rw [argumentTargets, range_succ_eq_map, filterMap_cons, filterMap_map, hrest,
    Nat.add_sub_cancel, Nat.sub_zero]
  cases argument? cls n <;> rfl

theorem filter_argumentRegs {args : List Reg} (h : FitsRegisters args) (cls : RegClass) :
    (argumentRegs args).filter (·.cls = cls) = argumentTargets cls (args.countP (·.cls = cls)) := by
  induction args with
  | nil => rfl
  | cons a args ih =>
    obtain ⟨p, hp, hcls, heq⟩ := argumentRegs_cons h
    rw [heq, filter_cons, ih h.tail, countP_cons, hcls]
    by_cases ha : a.cls = cls
    · subst ha
      simp [argumentTargets_succ, hp]
    · simp [ha]

theorem nodup_argumentTargets {cls : RegClass} {n : Nat} (hn : n ≤ cls.argumentCount) :
    (argumentTargets cls n).Nodup := by
  have hall : ∀ c : RegClass, ∀ n ≤ c.argumentCount, (argumentTargets c n).Nodup := by
    intro c
    cases c <;> decide
  exact hall cls n hn

def paramCount (code : Code) (cls : RegClass) : Nat := (paramRegs code).countP (·.cls = cls)

variable {function : String} {code : Code} {cls : RegClass}

theorem length_paramNames (code : Code) (cls : RegClass) :
    (paramNames code cls).length = paramCount code cls := by
  rw [paramNames_eq, length_map, ← countP_eq_length_filter, paramCount]

def classTable (code : Code) (cls : RegClass) : List (String × String) :=
  paramRenaming (paramNames code cls)
    ((argumentTargets cls (paramCount code cls)).map PhysReg.name)

theorem classRenaming_of_le (function : String) (h : paramCount code cls ≤ cls.argumentCount) :
    classRenaming function code cls = .ok (classTable code cls) := by
  simp only [classRenaming, length_paramNames, checkArgumentCount, if_neg (Nat.not_lt.mpr h)]
  rfl

theorem classRenaming_of_lt (function : String) (h : cls.argumentCount < paramCount code cls) :
    classRenaming function code cls =
      .error (.tooManyArguments function cls (paramCount code cls)) := by
  simp only [classRenaming, length_paramNames, checkArgumentCount, if_pos h]
  rfl

section Physical

variable (hphys : ∀ r ∈ paramRegs code, ∃ p ∉ PhysReg.reserved, r = .ofPhys p)
include hphys

theorem nodup_names_paramRegs (hnodup : (paramRegs code).Nodup) :
    ((paramRegs code).map Reg.name).Nodup :=
  hnodup.map_on fun r hr s hs hrs => by
    obtain ⟨p, _, rfl⟩ := hphys r hr
    obtain ⟨q, _, rfl⟩ := hphys s hs
    rw [name_injective hrs]

theorem shuffles_classTable (hnodup : (paramRegs code).Nodup)
    (hcount : paramCount code cls ≤ cls.argumentCount) : Shuffles (classTable code cls) := by
  refine shuffles_paramRenaming ?_ ?_ ?_
  · rw [paramNames_eq]
    exact (filter_sublist.map _).nodup (nodup_names_paramRegs hphys hnodup)
  · exact (nodup_argumentTargets hcount).map fun _ _ => name_injective
  · rw [length_paramNames, length_map]
    exact Nat.le_antisymm (length_argumentTargets hcount)
      ((length_filterMap_le _ _).trans_eq length_range)

theorem exists_of_mem_paramNames {x : String} (hx : x ∈ paramNames code cls) :
    ∃ p : PhysReg, p.cls = cls ∧ .ofPhys p ∈ paramRegs code ∧ x = p.name := by
  rw [paramNames_eq] at hx
  obtain ⟨r, hr, rfl⟩ := mem_map.mp hx
  obtain ⟨hr, hcls⟩ := mem_filter.mp hr
  obtain ⟨p, _, rfl⟩ := hphys r hr
  exact ⟨p, of_decide_eq_true hcls, hr, rfl⟩

omit hphys in
theorem cls_of_mem_argumentTargets {p : PhysReg} {n : Nat} (hp : p ∈ argumentTargets cls n) :
    p.cls = cls := by
  obtain ⟨k, _, hk⟩ := mem_filterMap.mp hp
  exact (argument?_not_mem_reserved hk).1

theorem exists_of_mem_classTable {e : String × String} (he : e ∈ classTable code cls) :
    ∃ p q : PhysReg, p.cls = cls ∧ q.cls = cls ∧ e = (p.name, q.name) := by
  have htarget : ∀ x ∈ (argumentTargets cls (paramCount code cls)).map name,
      ∃ p : PhysReg, p.cls = cls ∧ x = p.name := fun x hx => by
    obtain ⟨p, hp, rfl⟩ := mem_map.mp hx
    exact ⟨p, cls_of_mem_argumentTargets hp, rfl⟩
  obtain ⟨x, y⟩ := e
  rw [classTable, paramRenaming, mem_append, mem_reverse, mem_reverse] at he
  rcases he with he | he
  · obtain ⟨hx, hy⟩ := of_mem_zip he
    obtain ⟨p, hp, _, rfl⟩ := exists_of_mem_paramNames hphys hx
    obtain ⟨q, hq, rfl⟩ := htarget y hy
    exact ⟨p, q, hp, hq, rfl⟩
  · obtain ⟨hx, hy⟩ := of_mem_zip he
    obtain ⟨p, hp, rfl⟩ := htarget x (mem_of_mem_filter hx)
    obtain ⟨q, hq, _, rfl⟩ := exists_of_mem_paramNames hphys (mem_of_mem_filter hy)
    exact ⟨p, q, hp, hq, rfl⟩

theorem lookup_classTable_eq_none {p : PhysReg} (hp : .ofPhys p ∉ paramRegs code)
    (ht : p ∉ argumentTargets p.cls (paramCount code p.cls)) :
    (classTable code cls).lookup p.name = none := by
  refine lookup_paramRenaming_eq_none (fun hmem => ?_) fun hmem => ?_
  · obtain ⟨q, _, hq, hname⟩ := exists_of_mem_paramNames hphys hmem
    exact hp (name_injective hname ▸ hq)
  · obtain ⟨q, hq, hname⟩ := mem_map.mp hmem
    cases name_injective hname
    exact ht (cls_of_mem_argumentTargets hq ▸ hq)

theorem exists_perm_classTables (hnodup : (paramRegs code).Nodup)
    (hfits : FitsRegisters (paramRegs code)) :
    ∃ σ : Equiv.Perm PhysReg, (∀ p, (σ p).cls = p.cls) ∧
      (∀ p, .ofPhys p ∉ paramRegs code → p ∉ argumentTargets p.cls (paramCount code p.cls) →
        σ p = p) ∧
      Reg.renameBy (classTable code .float ++ classTable code .int) = Reg.permute σ := by
  have hshuffles : Shuffles (classTable code .float ++ classTable code .int) := by
    refine (shuffles_classTable hphys hnodup (hfits .float)).append
      (shuffles_classTable hphys hnodup (hfits .int)) fun x hx hx' => ?_
    obtain ⟨e, he, rfl⟩ := mem_map.mp hx
    obtain ⟨e', he', hname⟩ := mem_map.mp hx'
    obtain ⟨p, _, hp, _, rfl⟩ := exists_of_mem_classTable hphys he
    obtain ⟨q, _, hq, _, rfl⟩ := exists_of_mem_classTable hphys he'
    rw [name_injective hname, hp] at hq
    cases hq
  obtain ⟨σ, hcls, hfixed, hrename⟩ := hshuffles.exists_perm fun e he => by
    rcases mem_append.mp he with he | he <;>
      obtain ⟨p, q, hp, hq, rfl⟩ := exists_of_mem_classTable hphys he <;>
      exact ⟨p, q, hp.trans hq.symm, rfl⟩
  refine ⟨σ, hcls, fun p hp ht => hfixed p ?_, hrename⟩
  rw [lookup_append, lookup_classTable_eq_none hphys hp ht,
    lookup_classTable_eq_none hphys hp ht]
  rfl

end Physical

/-! ## Moving parameters -/

/-- Parameters with different registers, and no more of them than fit, are moved by a permutation
of the registers that keeps each bank and leaves alone what is neither a register of a parameter
nor one that callers use; the parameters of a class then stand in the argument registers of the
class, the last one in the first.  If there are more parameters than registers, the function is
refused, and the code stays as it is. -/
theorem assignParams_permutes (function : String) (code : Code) :
    (paramCount code .int ≤ 7 → paramCount code .float ≤ 8 → (paramRegs code).Nodup →
      (∀ r ∈ paramRegs code, ∃ p ∉ PhysReg.reserved, r = .ofPhys p) →
      ∃ (σ : Equiv.Perm PhysReg) (body : Code),
        assignParams function code = .ok body ∧ (moveParams function).run.run code = (.ok (), body) ∧
        body = code.map (Instr.mapRegs (Reg.permute σ)) ∧ (∀ p, (σ p).cls = p.cls) ∧
        (∀ p, .ofPhys p ∉ paramRegs code → p ∉ argumentTargets p.cls (paramCount code p.cls) →
          σ p = p) ∧
        ∀ cls, ∀ j < paramCount code cls, ((paramRegs body).filter (·.cls = cls))[j]? =
          (PhysReg.argument? cls (paramCount code cls - 1 - j)).map Reg.ofPhys) ∧
    (7 < paramCount code .int ∨ 8 < paramCount code .float →
      ∃ cls, cls.argumentCount < paramCount code cls ∧
        assignParams function code = .error (.tooManyArguments function cls (paramCount code cls)) ∧
        (moveParams function).run.run code =
          (.error (.tooManyArguments function cls (paramCount code cls)), code)) := by
  constructor
  · intro hint hfloat hnodup hphys
    have hfits : FitsRegisters (paramRegs code) := fun cls => by
      cases cls with
      | int => exact hint
      | float => exact hfloat
    obtain ⟨σ, hcls, hfixed, hrename⟩ := exists_perm_classTables hphys hnodup hfits
    have htable : paramTable function code = .ok (classTable code .float ++ classTable code .int) := by
      rw [paramTable, classRenaming_of_le function (hfits .int),
        classRenaming_of_le function (hfits .float)]
      rfl
    have hok : assignParams function code = .ok (code.map (Instr.mapRegs (Reg.permute σ))) := by
      rw [assignParams_eq, htable, ← hrename]
      rfl
    refine ⟨σ, _, hok, hrename ▸ moveParams_of_ok htable, rfl, hcls, hfixed, fun cls j hj => ?_⟩
    have hplaced : ∀ r ∈ paramRegs code, r.IsPlaced := fun r hr => by
      obtain ⟨p, hp, rfl⟩ := hphys r hr
      exact .inr ⟨p, rfl, hp, rfl⟩
    have hcomp : (fun r : Reg => decide (r.cls = cls)) ∘ Reg.ofPhys = fun p => decide (p.cls = cls) :=
      rfl
    rw [(paramRegs_assignParams_iff hok hplaced).mpr (nodup_names_paramRegs hphys hnodup),
      filter_map, getElem?_map, hcomp, filter_argumentRegs hfits,
      getElem?_argumentTargets (hfits cls) hj]
    rfl
  · intro hmany
    obtain ⟨cls, hcls, htable⟩ : ∃ cls, cls.argumentCount < paramCount code cls ∧
        paramTable function code = .error (.tooManyArguments function cls (paramCount code cls)) := by
      by_cases hint : RegClass.int.argumentCount < paramCount code .int
      · refine ⟨.int, hint, ?_⟩
        rw [paramTable, classRenaming_of_lt function hint]
        rfl
      · have hfloat : RegClass.float.argumentCount < paramCount code .float :=
          hmany.resolve_left hint
        refine ⟨.float, hfloat, ?_⟩
        rw [paramTable, classRenaming_of_le function (Nat.not_lt.mp hint),
          classRenaming_of_lt function hfloat]
        rfl
    refine ⟨cls, hcls, ?_, moveParams_of_error htable⟩
    rw [assignParams_eq, htable]
    rfl

/-- The first of two integers arrives where the second one should, and a sum is where the first one
should; a float arrives between them. -/
def crossedParams : Code :=
  [⟨.param, [.reg (.int "a1")]⟩, ⟨.param, [.reg (.float "f5")]⟩, ⟨.param, [.reg (.int "x20")]⟩,
    ⟨.add, [.reg (.int "a2"), .reg (.int "a1"), .reg (.int "x20")]⟩]

theorem assignParams_permutes_crossedParams :
    paramCount crossedParams .int = 2 ∧ ∃ (σ : Equiv.Perm PhysReg) (body : Code),
      assignParams "f" crossedParams = .ok body ∧
      (moveParams "f").run.run crossedParams = (.ok (), body) ∧
      body = crossedParams.map (Instr.mapRegs (Reg.permute σ)) ∧ (∀ p, (σ p).cls = p.cls) ∧
      (∀ p, .ofPhys p ∉ paramRegs crossedParams →
        p ∉ argumentTargets p.cls (paramCount crossedParams p.cls) → σ p = p) ∧
      ∀ cls, ∀ j < paramCount crossedParams cls, ((paramRegs body).filter (·.cls = cls))[j]? =
        (PhysReg.argument? cls (paramCount crossedParams cls - 1 - j)).map Reg.ofPhys := by
  have hphys : ∀ r ∈ paramRegs crossedParams, ∃ p ∉ PhysReg.reserved, r = .ofPhys p :=
    forall_mem_cons.mpr ⟨⟨⟨.int, 11⟩, by decide, rfl⟩, forall_mem_cons.mpr
      ⟨⟨⟨.float, 5⟩, by decide, rfl⟩, forall_mem_singleton.mpr ⟨⟨.int, 20⟩, by decide, rfl⟩⟩⟩
  exact ⟨by decide, (assignParams_permutes "f" crossedParams).1 (by decide) (by decide) (by decide)
    hphys⟩

end ClosureCodegen

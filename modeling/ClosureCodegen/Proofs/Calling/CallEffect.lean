import ClosureCodegen.Proofs.Calling.Stack
import ClosureCodegen.Proofs.Execution.StraightLine

/-!
# What the code around a call does

The code of a call is straight up to the transfer and straight behind it, so that each part is a
function on harts.  Up to the transfer it puts registers away in cells below the filled slots, moves
the arguments and the return address to their places, and changes nothing else.  Behind the transfer
it takes back what it has put away, and delivers the result.

* `effectOf_storesBelow` and `effectOf_loadsBelow`: traffic between registers and cells.
* `Prepared`: where everything is when control is handed over.
* `runFor_callCode`: the run of a whole call.
-/

namespace ClosureCodegen
open List PhysReg ClosureCodegen.Frame Instr

variable {env : Environment} {h : Hart} {a : Word} {r : Reg} {p t : PhysReg} {rs : List PhysReg}
  {c : (Reg × PhysReg) × Nat}

/-! ## Single instructions -/

namespace Instr

@[simp] theorem effect_loadWord (d b : Reg) (o : Word) :
    (load d b o).effect env h = h.set d (h.memory (h.get b + o)) :=
  effect_of_run (run_load d b o)

@[simp] theorem effect_storeWord (b r : Reg) (o : Word) :
    (store b r o).effect env h = h.write (h.get b + o) (h.get r) :=
  effect_of_run (run_store b r o)

@[simp] theorem effect_moveReg (d s : Reg) : (move d s).effect env h = h.set d (h.get s) :=
  effect_of_run (by rcases d with ⟨x, _ | _⟩ <;> rfl)

@[simp] theorem effect_moveStack (delta : Word) :
    (moveStack delta).effect env h = h.set stackReg (h.get stackReg + delta) :=
  effect_of_run rfl

theorem isStraight_load (d b : Reg) (o : Word) : (load d b o).IsStraight := by
  rcases d with ⟨x, _ | _⟩ <;> exact ⟨rfl, rfl, rfl⟩

theorem isStraight_store (b r : Reg) (o : Word) : (store b r o).IsStraight := by
  rcases r with ⟨x, _ | _⟩ <;> exact ⟨rfl, rfl, rfl⟩

theorem isStraight_move (d s : Reg) : (move d s).IsStraight := by
  rcases d with ⟨x, _ | _⟩ <;> exact ⟨rfl, rfl, rfl⟩

theorem isStraight_moveStack (delta : Word) : (moveStack delta).IsStraight :=
  ⟨rfl, rfl, rfl⟩

end Instr

/-- All instructions are straight. -/
def IsStraightCode (code : Code) : Prop := ∀ i ∈ code, i.IsStraight

theorem effectOf_stepStack {env : Environment} (delta : Word) :
    effectOf env (stepStack delta) h = h.set stackReg (h.get stackReg + delta) := by
  unfold stepStack
  split
  · next hzero =>
    rw [hzero, effectOf_nil]
    have := Hart.set_get_self (h := h) (q := stackReg) rfl
    rw [show h.get stackReg + 0 = h.get stackReg by simp, this]
  · simp

/-! ## Traffic between registers and cells -/

def storesBelow (cells : List (Reg × Nat)) : Code :=
  cells.map fun c => .store stackReg c.1 (Word.below c.2)

/-- Loads registers from cells below the stack pointer. -/
def loadsBelow (cells : List (Reg × Nat)) : Code :=
  cells.map fun c => .load c.1 stackReg (Word.below c.2)

section Traffic

variable {cells : List (Reg × Nat)}

@[simp] theorem storesBelow_cons (c : Reg × Nat) (cells : List (Reg × Nat)) :
    storesBelow (c :: cells) = .store stackReg c.1 (Word.below c.2) :: storesBelow cells := rfl

@[simp] theorem loadsBelow_cons (c : Reg × Nat) (cells : List (Reg × Nat)) :
    loadsBelow (c :: cells) = .load c.1 stackReg (Word.below c.2) :: loadsBelow cells := rfl

@[simp] theorem get_effectOf_storesBelow (r : Reg) :
    (effectOf env (storesBelow cells) h).get r = h.get r := by
  induction cells generalizing h with
  | nil => rfl
  | cons c cells ih => rw [storesBelow_cons, effectOf_cons, ih, effect_storeWord, Hart.get_write]

theorem memory_effectOf_storesBelow_of_ne (ha : ∀ c ∈ cells, a ≠ h.get stackReg + Word.below c.2) :
    (effectOf env (storesBelow cells) h).memory a = h.memory a := by
  induction cells generalizing h with
  | nil => rfl
  | cons c cells ih =>
    rw [forall_mem_cons] at ha
    rw [storesBelow_cons, effectOf_cons, effect_storeWord, ih, Hart.memory_write_of_ne ha.1]
    simpa only [Hart.get_write] using ha.2

/-- What is stored stays, since each cell is written once. -/
theorem memory_effectOf_storesBelow (hn : (cells.map Prod.snd).Nodup)
    (hk : ∀ c ∈ cells, c.2 < 2 ^ 30 - 1) {c : Reg × Nat} (hc : c ∈ cells) :
    (effectOf env (storesBelow cells) h).memory (h.get stackReg + Word.below c.2) = h.get c.1 := by
  induction cells generalizing h with
  | nil => cases hc
  | cons d cells ih =>
    rw [map_cons, nodup_cons] at hn
    rw [forall_mem_cons] at hk
    rw [storesBelow_cons, effectOf_cons, effect_storeWord]
    rcases mem_cons.mp hc with rfl | hc
    · rw [memory_effectOf_storesBelow_of_ne, Hart.memory_write_self]
      intro e he heq
      rw [Hart.get_write] at heq
      have := Word.below_injective hk.1 (hk.2 e he) heq
      exact hn.1 (this ▸ mem_map_of_mem he)
    · have := ih (h := h.write (h.get stackReg + Word.below d.2) (h.get d.1)) hn.2 hk.2 hc
      simpa only [Hart.get_write] using this

@[simp] theorem memory_effectOf_loadsBelow :
    (effectOf env (loadsBelow cells) h).memory = h.memory := by
  induction cells generalizing h with
  | nil => rfl
  | cons c cells ih => rw [loadsBelow_cons, effectOf_cons, ih, effect_loadWord, Hart.memory_set]

theorem get_effectOf_loadsBelow_of_ne (hr : ∀ c ∈ cells, r.name ≠ c.1.name) :
    (effectOf env (loadsBelow cells) h).get r = h.get r := by
  induction cells generalizing h with
  | nil => rfl
  | cons c cells ih =>
    rw [forall_mem_cons] at hr
    rw [loadsBelow_cons, effectOf_cons, ih hr.2, effect_loadWord, Hart.get_set_of_ne hr.1]

/-- What is loaded stays, since each register is written once. -/
theorem get_effectOf_loadsBelow (hn : (cells.map fun c => c.1.name).Nodup)
    (hs : ∀ c ∈ cells, stackReg.name ≠ c.1.name) {c : Reg × Nat} (hc : c ∈ cells)
    (hz : c.1.names .zero = false) :
    (effectOf env (loadsBelow cells) h).get c.1 =
      h.memory (h.get stackReg + Word.below c.2) := by
  induction cells generalizing h with
  | nil => cases hc
  | cons d cells ih =>
    rw [map_cons, nodup_cons] at hn
    rw [forall_mem_cons] at hs
    rw [loadsBelow_cons, effectOf_cons, effect_loadWord]
    rcases mem_cons.mp hc with rfl | hc
    · rw [get_effectOf_loadsBelow_of_ne, Hart.get_set_self hz]
      exact fun e he heq => hn.1 (heq ▸ mem_map_of_mem (f := fun c : Reg × Nat => c.1.name) he)
    · rw [ih hn.2 hs.2 hc, Hart.memory_set, Hart.get_set_of_ne hs.1]

theorem isStraightCode_storesBelow : IsStraightCode (storesBelow cells) := by
  intro i hi
  obtain ⟨c, -, rfl⟩ := mem_map.mp hi
  exact isStraight_store _ _ _

theorem isStraightCode_loadsBelow : IsStraightCode (loadsBelow cells) := by
  intro i hi
  obtain ⟨c, -, rfl⟩ := mem_map.mp hi
  exact isStraight_load _ _ _

end Traffic

theorem PhysReg.names_zero_ofPhys (hp : p ≠ .zero) : (Reg.ofPhys p).names .zero = false :=
  beq_eq_false_iff_ne.mpr fun h => hp (name_injective h)

/-! ## Saved registers -/

/-- Registers with the cells they are put away in. -/
def savedCells (rs : List PhysReg) : List (Reg × Nat) :=
  rs.zipIdx.map fun c => (Reg.ofPhys c.1, c.2)

theorem Frame.stores_eq (rs : List PhysReg) : stores rs = storesBelow (savedCells rs) := by
  simp only [stores, storesBelow, savedCells, map_map]
  rfl

theorem Frame.loads_eq (rs : List PhysReg) : loads rs = loadsBelow (savedCells rs).reverse := by
  simp only [loads, loadsBelow, savedCells, map_reverse, map_map]
  rfl

theorem mem_savedCells {c : Reg × Nat} :
    c ∈ savedCells rs ↔ ∃ p, rs[c.2]? = some p ∧ c.1 = .ofPhys p := by
  obtain ⟨r, k⟩ := c
  simp only [savedCells, mem_map, Prod.mk.injEq, Prod.exists]
  constructor
  · rintro ⟨p, n, hp, rfl, rfl⟩
    exact ⟨p, mem_zipIdx_iff_getElem?.mp hp, rfl⟩
  · rintro ⟨p, hp, rfl⟩
    exact ⟨p, k, mem_zipIdx_iff_getElem?.mpr hp, rfl, rfl⟩

theorem nodup_savedCells (rs : List PhysReg) : ((savedCells rs).map Prod.snd).Nodup := by
  have heq : (savedCells rs).map Prod.snd = List.range rs.length := by
    simp only [savedCells, map_map, Function.comp_def, range_eq_range']
    exact zipIdx_map_snd 0 rs
  rw [heq]
  exact nodup_range

theorem nodup_names_savedCells (hn : rs.Nodup) : ((savedCells rs).map fun c => c.1.name).Nodup := by
  have heq : (savedCells rs).map (fun c => c.1.name) = rs.map name := by
    simp only [savedCells, map_map, Function.comp_def]
    rw [← zipIdx_map_fst 0 rs, map_map]
    simp [Reg.ofPhys]
  rw [heq]
  exact hn.map fun _ _ h => name_injective h

theorem get_effectOf_loads_of_ne (hr : ∀ p ∈ rs, r.name ≠ p.name) :
    (effectOf env (loads rs) h).get r = h.get r := by
  rw [loads_eq, get_effectOf_loadsBelow_of_ne]
  intro c hc
  obtain ⟨p, hp, hcp⟩ := mem_savedCells.mp (mem_reverse.mp hc)
  rw [hcp]
  exact hr p (mem_of_getElem? hp)

theorem get_effectOf_loads (hn : rs.Nodup) (hs : ∀ p ∈ rs, stackReg.name ≠ p.name) (hp : p ≠ .zero)
    {k : Nat} (hk : rs[k]? = some p) : (effectOf env (loads rs) h).get (.ofPhys p) =
      h.memory (h.get stackReg + Word.below k) := by
  rw [loads_eq]
  refine get_effectOf_loadsBelow (c := (.ofPhys p, k)) ?_ (fun c hc => ?_)
    (mem_reverse.mpr (mem_savedCells.mpr ⟨p, hk, rfl⟩)) (names_zero_ofPhys hp)
  · rw [map_reverse, nodup_reverse]
    exact nodup_names_savedCells hn
  · obtain ⟨q, hq, hcq⟩ := mem_savedCells.mp (mem_reverse.mp hc)
    rw [hcq]
    exact hs q (mem_of_getElem? hq)

/-! ## Arguments -/

section Arguments

variable {args : List Reg} {targets : List PhysReg}

/-- The cells by way of which arguments are passed, with their registers. -/
def argumentCells (args : List Reg) (targets : List PhysReg) : List ((Reg × PhysReg) × Nat) :=
  (argumentMoves args targets).zipIdx

theorem passArguments_eq (args : List Reg) (targets : List PhysReg) :
    passArguments args targets =
      storesBelow ((argumentCells args targets).map fun c => (c.1.1, c.2)) ++
        loadsBelow ((argumentCells args targets).map fun c => (.ofPhys c.1.2, c.2)) := by
  simp only [passArguments, storesBelow, loadsBelow, argumentCells, map_map]
  rfl

theorem mem_argumentMoves {a : Reg} :
    (a, t) ∈ argumentMoves args targets ↔ (a, t) ∈ args.zip targets ∧ a.names t = false := by
  simp [argumentMoves]

theorem length_argumentMoves_le : (argumentMoves args targets).length ≤ targets.length := by
  refine Nat.le_trans (length_filter_le _ _) ?_
  rw [length_reverse, length_zip]
  exact Nat.min_le_right _ _

theorem nodup_map_snd_zip {α β : Type} {as : List α} {bs : List β} (h : bs.Nodup) :
    ((as.zip bs).map Prod.snd).Nodup := by
  induction as generalizing bs with
  | nil => simp
  | cons a as ih =>
    cases bs with
    | nil => simp
    | cons b bs =>
      obtain ⟨hb, hbs⟩ := nodup_cons.mp h
      rw [zip_cons_cons, map_cons, nodup_cons]
      refine ⟨fun hmem => hb ?_, ih hbs⟩
      obtain ⟨⟨a', b'⟩, hab, rfl⟩ := mem_map.mp hmem
      exact (of_mem_zip hab).2

theorem nodup_map_snd_argumentMoves (hn : targets.Nodup) :
    ((argumentMoves args targets).map Prod.snd).Nodup := by
  have hzip : ((args.zip targets).reverse.map Prod.snd).Nodup := by
    rw [map_reverse, nodup_reverse]
    exact nodup_map_snd_zip hn
  exact hzip.sublist (filter_sublist.map Prod.snd)

theorem snd_lt_of_mem_argumentCells (hc : c ∈ argumentCells args targets) : c.2 < targets.length :=
  Nat.lt_of_lt_of_le (by simpa using snd_lt_of_mem_zipIdx hc) length_argumentMoves_le

theorem fst_mem_of_mem_argumentCells (hc : c ∈ argumentCells args targets) : c.1.2 ∈ targets :=
  (of_mem_zip (mem_argumentMoves.mp (fst_mem_of_mem_zipIdx hc)).1).2

theorem get_effectOf_passArguments_of_ne (hr : ∀ t ∈ targets, r.name ≠ t.name) :
    (effectOf env (passArguments args targets) h).get r = h.get r := by
  rw [passArguments_eq, effectOf_append, get_effectOf_loadsBelow_of_ne, get_effectOf_storesBelow]
  intro c hc
  obtain ⟨d, hd, rfl⟩ := mem_map.mp hc
  exact hr _ (fst_mem_of_mem_argumentCells hd)

theorem memory_effectOf_passArguments_of_ne
    (ha : ∀ k < targets.length, a ≠ h.get stackReg + Word.below k) :
    (effectOf env (passArguments args targets) h).memory a = h.memory a := by
  rw [passArguments_eq, effectOf_append, memory_effectOf_loadsBelow,
    memory_effectOf_storesBelow_of_ne]
  intro c hc
  obtain ⟨d, hd, rfl⟩ := mem_map.mp hc
  exact ha _ (snd_lt_of_mem_argumentCells hd)

/-- Every argument arrives: it is in its register already, or it comes by way of its cell. -/
theorem get_effectOf_passArguments (hn : targets.Nodup) (hlen : targets.length ≤ 64)
    (ht : ∀ t ∈ targets, t ≠ .zero ∧ t ≠ .stackPointer) {a : Reg} (hat : (a, t) ∈ args.zip targets) :
    (effectOf env (passArguments args targets) h).get (.ofPhys t) = h.get a := by
  have hnodup : ((argumentMoves args targets).map Prod.snd).Nodup := nodup_map_snd_argumentMoves hn
  cases hname : a.names t with
  | true =>
    -- no other argument has the same register
    rw [passArguments_eq, effectOf_append, get_effectOf_loadsBelow_of_ne, get_effectOf_storesBelow]
    · exact Hart.get_congr (beq_iff_eq.mp hname).symm
    · intro c hc heq
      obtain ⟨⟨⟨b, u⟩, k⟩, hd, rfl⟩ := mem_map.mp hc
      obtain rfl : t = u := name_injective heq
      obtain ⟨hbu, hb⟩ := mem_argumentMoves.mp (fst_mem_of_mem_zipIdx hd)
      have hab : (a, t) = (b, t) :=
        inj_on_of_nodup_map (nodup_map_snd_zip hn) hat hbu rfl
      rw [(Prod.mk.inj hab).1, hb] at hname
      cases hname
  | false =>
    obtain ⟨k, hk⟩ := mem_iff_getElem?.mp (mem_argumentMoves.mpr ⟨hat, hname⟩)
    have hcell : ((a, t), k) ∈ argumentCells args targets := mem_zipIdx_iff_getElem?.mpr hk
    obtain ⟨hzero, -⟩ := ht t (of_mem_zip hat).2
    have hload := @get_effectOf_loadsBelow env
      (effectOf env (storesBelow ((argumentCells args targets).map fun c => (c.1.1, c.2))) h)
      ((argumentCells args targets).map fun c => (.ofPhys c.1.2, c.2)) ?_ ?_ _
      (mem_map_of_mem hcell) (names_zero_ofPhys hzero)
    · rw [passArguments_eq, effectOf_append, hload, get_effectOf_storesBelow]
      refine memory_effectOf_storesBelow ?_ ?_ (c := (a, k)) (mem_map_of_mem hcell)
      · rw [map_map, argumentCells]
        exact (zipIdx_map_snd 0 _).symm ▸ nodup_range' ..
      · intro c hc
        obtain ⟨d, hd, rfl⟩ := mem_map.mp hc
        have := snd_lt_of_mem_argumentCells hd
        dsimp only
        omega
    · have heq : (((argumentCells args targets).map fun c => (Reg.ofPhys c.1.2, c.2)).map
          fun c => c.1.name) = ((argumentMoves args targets).map Prod.snd).map name := by
        conv_rhs => rw [← zipIdx_map_fst 0 (argumentMoves args targets)]
        simp only [argumentCells, map_map]
        rfl
      rw [heq]
      exact hnodup.map fun _ _ h => name_injective h
    · intro c hc heq
      obtain ⟨d, hd, rfl⟩ := mem_map.mp hc
      exact (ht _ (fst_mem_of_mem_argumentCells hd)).2 (name_injective heq.symm)

end Arguments

/-! ## Up to the transfer -/

def callEntry (site : CallSite) (words : Nat) (targets saved : List PhysReg) : Code :=
  stepStack (-Word.ofCount words) ++ (Frame.stores saved ++ (stepStack (-Word.ofCount saved.length) ++
    (enterClosure site.target ++ (passArguments site.args targets ++
      [.store stackReg linkReg (Word.below 0), .moveStack (-Word.size)]))))

section Entry

variable {site : CallSite} {words : Nat} {targets saved : List PhysReg}

/-- A register that is not written to enter a closure. -/
def CallTarget.Spares (target : CallTarget) (r : Reg) : Prop :=
  ∀ c, target = .closure c → r.name ≠ PhysReg.scratch.name ∧ r.name ≠ PhysReg.closure.name

theorem get_effectOf_enterClosure_of_spares {target : CallTarget} (hr : target.Spares r) :
    (effectOf env (enterClosure target) h).get r = h.get r := by
  cases target with
  | direct l => rfl
  | closure c =>
    obtain ⟨hs, hc⟩ := hr c rfl
    simp only [enterClosure, effectOf_cons, effectOf_nil, effect_moveReg,
      effect_loadWord]
    rw [Hart.get_set_of_ne hc, Hart.get_set_of_ne hs]

@[simp] theorem memory_effectOf_enterClosure (target : CallTarget) :
    (effectOf env (enterClosure target) h).memory = h.memory := by
  cases target with
  | direct l => rfl
  | closure c => simp [enterClosure]

theorem CallTarget.spares_stackReg (target : CallTarget) : target.Spares stackReg :=
  fun _ _ => by decide

theorem CallTarget.spares_linkReg (target : CallTarget) : target.Spares linkReg :=
  fun _ _ => by decide

/-- Registers are put away below the filled slots. -/
structure PutAway (words : Nat) (saved : List PhysReg) (h h' : Hart) : Prop where
  stack : h'.get stackReg = h.get stackReg - Word.ofCount (words + saved.length)
  stored : ∀ k p, saved[k]? = some p → p ≠ .stackPointer →
    h'.memory (h.get stackReg + Word.below (words + k)) = h.get (.ofPhys p)
  memory : ∀ a, (∀ k < saved.length, a ≠ h.get stackReg + Word.below (words + k)) →
    h'.memory a = h.memory a
  regs : ∀ r : Reg, r.name ≠ stackReg.name → h'.get r = h.get r

theorem putAway_effectOf (env : Environment) (h : Hart) (words : Nat) (hs : saved.length ≤ 64) :
    PutAway words saved h (effectOf env (stepStack (-Word.ofCount words) ++
      (stores saved ++ stepStack (-Word.ofCount saved.length))) h) := by
  rw [effectOf_append, effectOf_append, effectOf_stepStack, effectOf_stepStack, stores_eq]
  obtain ⟨h₁, hh₁⟩ : ∃ h₁, h₁ = h.set stackReg (h.get stackReg + -Word.ofCount words) := ⟨_, rfl⟩
  rw [← hh₁]
  have hsp : h₁.get stackReg = h.get stackReg - Word.ofCount words := by
    rw [hh₁, Hart.get_set_self rfl]
    generalize Word.ofCount words = x
    bv_omega
  have hreg : ∀ r : Reg, r.name ≠ stackReg.name → h₁.get r = h.get r := fun r hr => by
    rw [hh₁, Hart.get_set_of_ne hr]
  have hmem : h₁.memory = h.memory := by rw [hh₁, Hart.memory_set]
  have hcell (k : Nat) : h₁.get stackReg + Word.below k = h.get stackReg + Word.below (words + k) := by
    rw [hsp, Word.sub_ofCount_add_below]
  refine ⟨?_, fun k p hp hps => ?_, fun a ha => ?_, fun r hr => ?_⟩
  · rw [Hart.get_set_self rfl, get_effectOf_storesBelow, hsp, Word.ofCount_add]
    generalize Word.ofCount words = x
    generalize Word.ofCount saved.length = y
    bv_omega
  · rw [Hart.memory_set, ← hcell]
    have hstored := @memory_effectOf_storesBelow env h₁ _ (nodup_savedCells saved)
      (fun c hc => ?_) (Reg.ofPhys p, k) (mem_savedCells.mpr ⟨p, hp, rfl⟩)
    · rw [hstored, hreg]
      exact fun hn => hps (name_injective hn)
    · obtain ⟨q, hq, -⟩ := mem_savedCells.mp hc
      have := (List.getElem?_eq_some_iff.mp hq).1
      omega
  · rw [Hart.memory_set, memory_effectOf_storesBelow_of_ne, hmem]
    intro c hc
    obtain ⟨p, hp, -⟩ := mem_savedCells.mp hc
    rw [hcell]
    exact ha c.2 (List.getElem?_eq_some_iff.mp hp).1
  · rw [Hart.get_set_of_ne hr, get_effectOf_storesBelow, hreg r hr]

/-- Everything is where it belongs when control is handed over. -/
structure Prepared (site : CallSite) (words : Nat) (targets saved : List PhysReg) (h h' : Hart) :
    Prop where
  stack : h'.get stackReg = h.get stackReg - Word.ofCount (words + saved.length + 1)
  stored : ∀ k p, saved[k]? = some p → p ≠ .stackPointer →
    h'.memory (h.get stackReg + Word.below (words + k)) = h.get (.ofPhys p)
  link : h'.memory (h.get stackReg + Word.below (words + saved.length)) = h.get linkReg
  memory : ∀ a, (∀ k, words ≤ k → k < words + saved.length + max targets.length 1 →
    a ≠ h.get stackReg + Word.below k) → h'.memory a = h.memory a
  regs : ∀ r : Reg, r.name ≠ stackReg.name → (∀ t ∈ targets, r.name ≠ t.name) →
    site.target.Spares r → h'.get r = h.get r
  arguments : ∀ a t, (a, t) ∈ site.args.zip targets → a.name ≠ stackReg.name →
    site.target.Spares a → h'.get (.ofPhys t) = h.get a
  closure : ∀ c, site.target = .closure c → c.name ≠ stackReg.name → c.name ≠ PhysReg.scratch.name →
    h'.get (.ofPhys .closure) = h.get c ∧
      ((∀ k < saved.length, h.get c ≠ h.get stackReg + Word.below (words + k)) →
        h'.get (.ofPhys .scratch) = h.memory (h.get c))

theorem PhysReg.not_mem_reserved_of_callerSaved (hp : RegSet.callerSaved.contains p = true) :
    p ∉ reserved := by
  have hall : ∀ q ∈ all, RegSet.callerSaved.contains q = true → q ∉ reserved := by
    decide
  exact hall p (mem_all p) hp

theorem PhysReg.name_ne_of_mem_reserved (ht : ∀ t ∈ targets, RegSet.callerSaved.contains t = true)
    (hp : p ∈ reserved) : ∀ t ∈ targets, (Reg.ofPhys p).name ≠ t.name :=
  fun t htt hpt => not_mem_reserved_of_callerSaved (ht t htt) (name_injective hpt ▸ hp)

theorem prepared_effectOf_callEntry (hw : words ≤ SlotLayout.limit) (hs : saved.length ≤ 64)
    (hlen : targets.length ≤ 64) (hn : targets.Nodup)
    (ht : ∀ t ∈ targets, RegSet.callerSaved.contains t = true) :
    Prepared site words targets saved h (effectOf env (callEntry site words targets saved) h) := by
  rw [SlotLayout.limit] at hw
  have hnames := fun p hp => name_ne_of_mem_reserved (p := p) ht hp
  -- the states on the way
  obtain ⟨h₁, hh₁⟩ : ∃ h₁, h₁ = effectOf env (stepStack (-Word.ofCount words) ++
    (stores saved ++ stepStack (-Word.ofCount saved.length))) h := ⟨_, rfl⟩
  obtain ⟨h₂, hh₂⟩ : ∃ h₂, h₂ = effectOf env (enterClosure site.target) h₁ := ⟨_, rfl⟩
  obtain ⟨h₃, hh₃⟩ : ∃ h₃, h₃ = effectOf env (passArguments site.args targets) h₂ := ⟨_, rfl⟩
  have hout : effectOf env (callEntry site words targets saved) h =
      (h₃.write (h₃.get stackReg + Word.below 0) (h₃.get linkReg)).set stackReg
        (h₃.get stackReg + -Word.size) := by
    simp only [effectOf_append] at hh₁
    simp only [callEntry, effectOf_append, ← hh₁, ← hh₂, ← hh₃, effectOf_cons, effectOf_nil,
      effect_storeWord, effect_moveStack, Hart.get_write]
  have haway : PutAway words saved h h₁ := hh₁ ▸ putAway_effectOf env h words hs
  have hsp₂ : h₂.get stackReg = h.get stackReg - Word.ofCount (words + saved.length) := by
    rw [hh₂, get_effectOf_enterClosure_of_spares (CallTarget.spares_stackReg _), haway.stack]
  have hsp₃ : h₃.get stackReg = h.get stackReg - Word.ofCount (words + saved.length) := by
    rw [hh₃, get_effectOf_passArguments_of_ne (r := stackReg) (hnames .stackPointer (by decide)), hsp₂]
  have hmem₂ : h₂.memory = h₁.memory := by rw [hh₂, memory_effectOf_enterClosure]
  have hmem₃ : ∀ a, (∀ k < targets.length,
      a ≠ h.get stackReg + Word.below (words + saved.length + k)) → h₃.memory a = h₁.memory a := by
    intro a ha
    rw [hh₃, memory_effectOf_passArguments_of_ne, hmem₂]
    intro k hk
    rw [hsp₂, Word.sub_ofCount_add_below]
    exact ha k hk
  have hlink : h₃.get stackReg + Word.below 0 =
      h.get stackReg + Word.below (words + saved.length) := by
    rw [hsp₃, Word.sub_ofCount_add_below, Nat.add_zero]
  have hregs₃ : ∀ r : Reg, r.name ≠ stackReg.name → (∀ t ∈ targets, r.name ≠ t.name) →
      site.target.Spares r → h₃.get r = h.get r := fun r hr hrt hrs => by
    rw [hh₃, get_effectOf_passArguments_of_ne hrt, hh₂, get_effectOf_enterClosure_of_spares hrs,
      haway.regs r hr]
  have hcells {j k : Nat} (hj : j < 2 ^ 30 - 1) (hk : k < 2 ^ 30 - 1) (hjk : j ≠ k) :
      h.get stackReg + Word.below j ≠ h.get stackReg + Word.below k :=
    fun heq => hjk (Word.below_injective hj hk heq)
  rw [hout, hlink]
  refine ⟨?_, fun k p hp hps => ?_, ?_, fun a ha => ?_, fun r hr hrt hrs => ?_, fun a t hat ha has => ?_,
    fun c hc hcs hcx => ⟨?_, fun hcell => ?_⟩⟩
  · rw [Hart.get_set_self rfl, hsp₃, Word.ofCount_add _ 1, Word.ofCount_one]
    generalize Word.ofCount (words + saved.length) = x
    bv_omega
  · have hk := (List.getElem?_eq_some_iff.mp hp).1
    rw [Hart.memory_set, Hart.memory_write_of_ne (hcells (by omega) (by omega) (by omega)), hmem₃,
      haway.stored k p hp hps]
    exact fun j hj => hcells (by omega) (by omega) (by omega)
  · rw [Hart.memory_set, Hart.memory_write_self]
    exact hregs₃ linkReg (by decide) (hnames .returnAddress (by decide))
      (CallTarget.spares_linkReg _)
  · rw [Hart.memory_set, Hart.memory_write_of_ne (ha _ (by omega) (by omega)), hmem₃, haway.memory]
    · exact fun k hk => ha _ (by omega) (by omega)
    · exact fun k hk => ha _ (by omega) (by omega)
  · rw [Hart.get_set_of_ne hr, Hart.get_write, hregs₃ r hr hrt hrs]
  · have htt := (of_mem_zip hat).2
    have hmachine : ∀ t ∈ targets, t ≠ .zero ∧ t ≠ .stackPointer := fun t htt =>
      ⟨fun h => not_mem_reserved_of_callerSaved (ht t htt) (h ▸ by decide),
        fun h => not_mem_reserved_of_callerSaved (ht t htt) (h ▸ by decide)⟩
    rw [Hart.get_set_of_ne fun hn => (hmachine t htt).2 (name_injective hn), Hart.get_write, hh₃,
      get_effectOf_passArguments hn hlen hmachine hat, hh₂, get_effectOf_enterClosure_of_spares has,
      haway.regs a ha]
  · rw [Hart.get_set_of_ne (by decide), Hart.get_write, hh₃,
      get_effectOf_passArguments_of_ne (hnames .closure (by decide)), hh₂, hc]
    simp only [enterClosure, effectOf_cons, effectOf_nil, effect_moveReg,
      effect_loadWord]
    rw [Hart.get_set_self rfl, Hart.get_set_of_ne hcx, haway.regs c hcs]
  · rw [Hart.get_set_of_ne (by decide), Hart.get_write, hh₃,
      get_effectOf_passArguments_of_ne (hnames .scratch (by decide)), hh₂, hc]
    simp only [enterClosure, effectOf_cons, effectOf_nil, effect_moveReg,
      effect_loadWord]
    rw [Hart.get_set_of_ne (by decide), Hart.get_set_self rfl, haway.regs c hcs,
      show h.get c + 0 = h.get c from BitVec.add_zero _, haway.memory _ hcell]

end Entry

/-! ## Behind the transfer -/

/-- Moves a result out of the way of the registers that are taken back. -/
def relayResult (site : CallSite) : Code :=
  match site.dest? with
  | some d => [.move (.ofPhys (.relay d.cls)) (.ofPhys (.result d.cls))]
  | none => []

/-- Moves a result to its destination. -/
def deliverResult (site : CallSite) : Code :=
  match site.dest? with
  | some d => [.move d (.ofPhys (.relay d.cls))]
  | none => []

def callReturn (site : CallSite) (words : Nat) (saved : List PhysReg) : Code :=
  .moveStack Word.size :: .load linkReg stackReg (Word.below 0) ::
    (relayResult site ++ (stepStack (Word.ofCount saved.length) ++ (Frame.loads saved ++
      (stepStack (Word.ofCount words) ++ deliverResult site))))

theorem callCode_eq (site : CallSite) (words : Nat) (targets saved : List PhysReg) :
    callCode site (Word.ofCount words) targets saved =
      callEntry site words targets saved ++ transfer site.target :: callReturn site words saved := by
  obtain ⟨dest?, target, args⟩ := site
  cases dest? <;>
    simp only [callCode, callEntry, callReturn, relayResult, deliverResult, linkReg,
      append_assoc, cons_append, nil_append]

section Return

variable {site : CallSite} {words : Nat} {saved : List PhysReg} {top : Word}

theorem memory_effectOf_relayResult : (effectOf env (relayResult site) h).memory = h.memory := by
  unfold relayResult
  split <;> simp

theorem get_effectOf_relayResult_of_ne
    (hr : ∀ d, site.dest? = some d → r.name ≠ (relay d.cls).name) :
    (effectOf env (relayResult site) h).get r = h.get r := by
  unfold relayResult
  split
  · next d hd =>
    rw [effectOf_cons, effectOf_nil, effect_moveReg]
    exact Hart.get_set_of_ne (hr d hd)
  · rfl

theorem memory_effectOf_deliverResult : (effectOf env (deliverResult site) h).memory = h.memory := by
  unfold deliverResult
  split <;> simp

theorem get_effectOf_deliverResult_of_ne (hr : ∀ d, site.dest? = some d → r.name ≠ d.name) :
    (effectOf env (deliverResult site) h).get r = h.get r := by
  unfold deliverResult
  split
  · next d hd =>
    rw [effectOf_cons, effectOf_nil, effect_moveReg]
    exact Hart.get_set_of_ne (hr d hd)
  · rfl

/-- What has been put away is back, and the result is delivered. -/
structure Resumed (site : CallSite) (words : Nat) (saved : List PhysReg) (top : Word) (h h' : Hart) :
    Prop where
  memory : h'.memory = h.memory
  stack : (∀ d, site.dest? = some d → d.name ≠ stackReg.name) → h'.get stackReg = top
  link : (∀ d, site.dest? = some d → d.name ≠ linkReg.name) →
    h'.get linkReg = h.memory (top + Word.below (words + saved.length))
  restored : ∀ k p, saved[k]? = some p → (∀ d, site.dest? = some d → d.name ≠ p.name) →
    h'.get (.ofPhys p) = h.memory (top + Word.below (words + k))
  result : ∀ d, site.dest? = some d → d.names .zero = false →
    h'.get d = h.get (.ofPhys (.result d.cls))
  regs : ∀ r : Reg, r.name ≠ stackReg.name → r.name ≠ linkReg.name → (∀ p ∈ saved, r.name ≠ p.name) →
    (∀ d, site.dest? = some d → r.name ≠ d.name ∧ r.name ≠ (PhysReg.relay d.cls).name) →
    h'.get r = h.get r

theorem PhysReg.relay_mem_reserved (cls : RegClass) : relay cls ∈ reserved := by
  cases cls <;> decide

theorem PhysReg.relay_ne (cls : RegClass) :
    (relay cls).name ≠ stackPointer.name ∧ (relay cls).name ≠ returnAddress.name := by
  cases cls <;> decide

theorem PhysReg.result_ne (cls : RegClass) :
    (result cls).name ≠ stackPointer.name ∧ (result cls).name ≠ returnAddress.name := by
  cases cls <;> decide

theorem resumed_effectOf_callReturn (hs : saved.Nodup)
    (hcaller : ∀ p ∈ saved, RegSet.callerSaved.contains p = true)
    (htop : h.get stackReg = top - Word.ofCount (words + saved.length + 1)) :
    Resumed site words saved top h (effectOf env (callReturn site words saved) h) := by
  have hnames := fun p hp => name_ne_of_mem_reserved (p := p) hcaller hp
  -- the states on the way
  obtain ⟨h₁, hh₁⟩ : ∃ h₁, h₁ = h.set stackReg (h.get stackReg + Word.size) := ⟨_, rfl⟩
  obtain ⟨h₂, hh₂⟩ : ∃ h₂, h₂ = h₁.set linkReg (h₁.memory (h₁.get stackReg + Word.below 0)) :=
    ⟨_, rfl⟩
  obtain ⟨h₃, hh₃⟩ : ∃ h₃, h₃ = effectOf env (relayResult site) h₂ := ⟨_, rfl⟩
  obtain ⟨h₄, hh₄⟩ : ∃ h₄, h₄ = h₃.set stackReg (h₃.get stackReg + Word.ofCount saved.length) :=
    ⟨_, rfl⟩
  obtain ⟨h₅, hh₅⟩ : ∃ h₅, h₅ = effectOf env (loads saved) h₄ := ⟨_, rfl⟩
  obtain ⟨h₆, hh₆⟩ : ∃ h₆, h₆ = h₅.set stackReg (h₅.get stackReg + Word.ofCount words) := ⟨_, rfl⟩
  have hout : effectOf env (callReturn site words saved) h = effectOf env (deliverResult site) h₆ := by
    simp only [callReturn, effectOf_cons, effectOf_append, effectOf_stepStack, effect_moveStack,
      effect_loadWord, ← hh₁, ← hh₂, ← hh₃, ← hh₄, ← hh₅, ← hh₆]
  have hrelay : ∀ d, site.dest? = some d → stackReg.name ≠ (relay d.cls).name ∧
      linkReg.name ≠ (relay d.cls).name := fun d _ =>
    ⟨(relay_ne d.cls).1.symm, (relay_ne d.cls).2.symm⟩
  -- memory stays
  have hmem₂ : h₂.memory = h.memory := by rw [hh₂, Hart.memory_set, hh₁, Hart.memory_set]
  have hmem₄ : h₄.memory = h.memory := by
    rw [hh₄, Hart.memory_set, hh₃, memory_effectOf_relayResult, hmem₂]
  have hmem₆ : h₆.memory = h.memory := by
    rw [hh₆, Hart.memory_set, hh₅, loads_eq, memory_effectOf_loadsBelow, hmem₄]
  -- the stack pointer goes up
  have hsp₁ : h₁.get stackReg = top - Word.ofCount (words + saved.length) := by
    rw [hh₁, Hart.get_set_self rfl, htop, Word.ofCount_add _ 1, Word.ofCount_one]
    generalize Word.ofCount (words + saved.length) = x
    bv_omega
  have hsp₃ : h₃.get stackReg = top - Word.ofCount (words + saved.length) := by
    rw [hh₃, get_effectOf_relayResult_of_ne fun d hd => (hrelay d hd).1, hh₂,
      Hart.get_set_of_ne (by decide), hsp₁]
  have hsp₄ : h₄.get stackReg = top - Word.ofCount words := by
    rw [hh₄, Hart.get_set_self rfl, hsp₃, Word.ofCount_add]
    generalize Word.ofCount words = x
    generalize Word.ofCount saved.length = y
    bv_omega
  have hloads : ∀ r : Reg, (∀ p ∈ saved, r.name ≠ p.name) → h₅.get r = h₄.get r := fun r hr => by
    rw [hh₅, get_effectOf_loads_of_ne hr]
  have hsp₆ : h₆.get stackReg = top := by
    rw [hh₆, Hart.get_set_self rfl, hloads stackReg (hnames .stackPointer (by decide)), hsp₄]
    generalize Word.ofCount words = x
    bv_omega
  -- the other registers
  have hregs₆ : ∀ r : Reg, r.name ≠ stackReg.name → (∀ p ∈ saved, r.name ≠ p.name) →
      h₆.get r = h₃.get r := fun r hr hrs => by
    rw [hh₆, Hart.get_set_of_ne hr, hloads r hrs, hh₄, Hart.get_set_of_ne hr]
  have hregs₂ : ∀ r : Reg, r.name ≠ stackReg.name → r.name ≠ linkReg.name → h₂.get r = h.get r :=
    fun r hr hrl => by rw [hh₂, Hart.get_set_of_ne hrl, hh₁, Hart.get_set_of_ne hr]
  rw [hout]
  refine ⟨?_, fun hd => ?_, fun hd => ?_, fun k p hp hd => ?_, fun d hd hz => ?_,
    fun r hr hrl hrs hrd => ?_⟩
  · rw [memory_effectOf_deliverResult, hmem₆]
  · rw [get_effectOf_deliverResult_of_ne fun d h => (hd d h).symm, hsp₆]
  · rw [get_effectOf_deliverResult_of_ne fun d h => (hd d h).symm,
      hregs₆ linkReg (by decide) (hnames .returnAddress (by decide)), hh₃,
      get_effectOf_relayResult_of_ne fun d h => (hrelay d h).2, hh₂, Hart.get_set_self rfl, hsp₁, hh₁,
      Hart.memory_set, Word.sub_ofCount_add_below, Nat.add_zero]
  · have hpr := not_mem_reserved_of_callerSaved (hcaller p (mem_of_getElem? hp))
    have hps : (Reg.ofPhys p).name ≠ stackReg.name := fun hn => by
      obtain rfl : p = .stackPointer := name_injective hn
      exact hpr (by decide)
    have hz : p ≠ .zero := fun hz => hpr (hz ▸ by decide)
    rw [get_effectOf_deliverResult_of_ne fun d h => (hd d h).symm, hh₆, Hart.get_set_of_ne hps, hh₅,
      get_effectOf_loads hs (hnames .stackPointer (by decide)) hz hp, hmem₄, hsp₄,
      Word.sub_ofCount_add_below]
  · have hrel := relay_ne d.cls
    have hres := result_ne d.cls
    have hnz : (Reg.ofPhys (.relay d.cls)).names .zero = false := by cases d.cls <;> rfl
    have hkept := hregs₆ (.ofPhys (.relay d.cls)) hrel.1 (hnames _ (relay_mem_reserved _))
    have hdeliver : effectOf env (deliverResult site) h₆ =
        h₆.set d (h₆.get (.ofPhys (.relay d.cls))) := by
      simp only [deliverResult, hd, effectOf_cons, effectOf_nil, effect_moveReg]
    have hrelayed : h₃ = h₂.set (.ofPhys (.relay d.cls)) (h₂.get (.ofPhys (.result d.cls))) := by
      rw [hh₃]
      simp only [relayResult, hd, effectOf_cons, effectOf_nil, effect_moveReg]
    rw [hdeliver, Hart.get_set_self hz, hkept, hrelayed, Hart.get_set_self hnz,
      hregs₂ _ hres.1 hres.2]
  · rw [get_effectOf_deliverResult_of_ne fun d h => (hrd d h).1, hregs₆ r hr hrs, hh₃,
      get_effectOf_relayResult_of_ne fun d h => (hrd d h).2, hregs₂ r hr hrl]

end Return

/-! ## Runs -/

section Runs

variable {site : CallSite} {words : Nat} {targets saved : List PhysReg}

theorem isStraightCode_append {a b : Code} (ha : IsStraightCode a) (hb : IsStraightCode b) :
    IsStraightCode (a ++ b) :=
  forall_mem_append.mpr ⟨ha, hb⟩

theorem isStraightCode_stepStack (delta : Word) : IsStraightCode (stepStack delta) := by
  unfold stepStack
  split
  · nofun
  · exact fun i hi => mem_singleton.mp hi ▸ isStraight_moveStack delta

theorem isStraightCode_passArguments (args : List Reg) (targets : List PhysReg) :
    IsStraightCode (passArguments args targets) :=
  passArguments_eq args targets ▸
    isStraightCode_append isStraightCode_storesBelow isStraightCode_loadsBelow

theorem isStraightCode_enterClosure (target : CallTarget) : IsStraightCode (enterClosure target) := by
  cases target with
  | direct l => exact forall_mem_nil _
  | closure c =>
    simp only [IsStraightCode, enterClosure, forall_mem_cons]
    exact ⟨isStraight_load _ _ _, isStraight_move _ _, forall_mem_nil _⟩

theorem isStraightCode_callEntry : IsStraightCode (callEntry site words targets saved) := by
  have hlast : IsStraightCode [.store stackReg linkReg (Word.below 0), .moveStack (-Word.size)] := by
    simp only [IsStraightCode, forall_mem_cons]
    exact ⟨isStraight_store _ _ _, isStraight_moveStack _, nofun⟩
  have hstores : IsStraightCode (stores saved) :=
    stores_eq saved ▸ isStraightCode_storesBelow
  exact isStraightCode_append (isStraightCode_stepStack _) (isStraightCode_append hstores
    (isStraightCode_append (isStraightCode_stepStack _) (isStraightCode_append
      (isStraightCode_enterClosure _) (isStraightCode_append (isStraightCode_passArguments _ _) hlast))))

theorem isStraightCode_callReturn : IsStraightCode (callReturn site words saved) := by
  have hrelay : IsStraightCode (relayResult site) := by
    unfold relayResult
    split
    · exact fun i hi => mem_singleton.mp hi ▸ isStraight_move _ _
    · nofun
  have hdeliver : IsStraightCode (deliverResult site) := by
    unfold deliverResult
    split
    · exact fun i hi => mem_singleton.mp hi ▸ isStraight_move _ _
    · nofun
  have hloads : IsStraightCode (loads saved) :=
    loads_eq saved ▸ isStraightCode_loadsBelow
  refine forall_mem_cons.mpr ⟨isStraight_moveStack _, forall_mem_cons.mpr
    ⟨isStraight_load _ _ _, ?_⟩⟩
  exact isStraightCode_append hrelay (isStraightCode_append (isStraightCode_stepStack _)
    (isStraightCode_append hloads (isStraightCode_append (isStraightCode_stepStack _) hdeliver)))

def CallTarget.calleeAt (h : Hart) : CallTarget → Callee
  | .direct l => .function l
  | .closure _ => .code (h.get (.ofPhys .scratch) + 0)

theorem callee?_transfer (target : CallTarget) (h : Hart) :
    (transfer target).callee? h = some (target.calleeAt h) := by
  cases target <;> rfl

/-- The run of a whole call: up to the transfer, the reply of the callee, and what is behind. -/
theorem runFor_callCode (env : HartEnvironment) (code rest : Code) {h' : Hart} (n : Nat)
    (hentry : h' = effectOf env.toEnvironment (callEntry site words targets saved) h) :
    ∃ m, runFor (hartStep env code) m
        ⟨callCode site (Word.ofCount words) targets saved ++ rest, h, n⟩ =
      ⟨[⟨site.target.calleeAt h', h'⟩], .running ⟨rest, effectOf env.toEnvironment
        (callReturn site words saved) (env.reply n (site.target.calleeAt h') h'), n + 1⟩⟩ := by
  rw [callCode_eq, append_assoc, cons_append]
  have hbefore := @runFor_straight env code
    (transfer site.target :: (callReturn site words saved ++ rest))
    (callEntry site words targets saved) isStraightCode_callEntry h n
  rw [← hentry] at hbefore
  have hstep : hartStep env code
      ⟨transfer site.target :: (callReturn site words saved ++ rest), h', n⟩ =
      .next [⟨site.target.calleeAt h', h'⟩] ⟨callReturn site words saved ++ rest,
        env.reply n (site.target.calleeAt h') h', n + 1⟩ := by
    simp only [hartStep, callee?_transfer]
  have hbehind := @runFor_straight env code rest (callReturn site words saved)
    isStraightCode_callReturn (env.reply n (site.target.calleeAt h') h') (n + 1)
  refine ⟨_, (runFor_add hbefore ((callReturn site words saved).length + 1)).trans ?_⟩
  rw [runFor_succ_next hstep, hbehind]
  rfl

end Runs

end ClosureCodegen

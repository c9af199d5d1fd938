import PortingKit.Driver.Lifecycle
import PortingKit.Driver.UserClient
/-!
# The life of a driver object

`init` and `free` of NVIDIADriver.cpp around `Start` and `Stop`, with the user
clients that retain the driver. The object is freed in the step that takes its
last reference. IOKit, its owner, makes new references and calls `Start` and
`Stop` only while it has one itself, as it does while it starts a user client.
`V` is the type of addresses of `NVIDIADriver_IVars`.
-/
open PortingKit.Lib PortingKit.Shim

namespace PortingKit.Driver.Object

variable {I A P V : Type}

/-- The member `ivars`, and what `IONewZero` has handed out. -/
structure Memory (A P V : Type) where
  ivars : Option V
  blocks : V → Option (IVars A P)

/-- A new object is zeroed. -/
def Memory.new : Memory A P V := ⟨none, fun _ => none⟩

section
variable [DecidableEq V]

def ioNewZero (v : Option V) (m : Memory A P V) : Memory A P V :=
  match v with
  | none => { m with ivars := none }
  | some v => ⟨some v, Function.update m.blocks v (some ⟨none, none⟩)⟩

/-- With what `super::init` and `IONewZero` answer. -/
def init (superInit : Bool) (v : Option V) (m : Memory A P V) : Bool × Memory A P V :=
  if !superInit then (false, m)
  else
    let m := ioNewZero v m
    if m.ivars.isNone then (false, m) else (true, m)

/-- `IOSafeDeleteNULL`, which must not be given a dangling pointer. -/
def free (m : Memory A P V) : Option (Memory A P V) :=
  match m.ivars with
  | none => some m
  | some v => if (m.blocks v).isNone then none else some ⟨none, Function.update m.blocks v none⟩

/-- An object whose retain count goes from `n` to `n'`. -/
def freeAtZero (n n' : ℕ) (m : Memory A P V) : Option (Memory A P V) := if n ≠ 0 ∧ n' = 0 then free m else some m

end

structure State (I A P V : Type) where
  /-- The user clients, and the retain count. -/
  clients : UserClient.State I P
  mem : Memory A P V
  /-- `init` succeeded. -/
  ready : Bool
  started : Bool
  world : World A P

inductive Act (I A P : Type) where
  | client (a : UserClient.Act I P)
  | request (a : Driver.Act A P)
  /-- `ivars` is used or freed while it points nowhere. -/
  | fault

/-- The rules of IOKit. -/
def State.Allows (s : State I A P V) : UserClient.Act I P → Prop
  | .begin _ _ => s.ready = true
  | a => a.MakesReference → 0 < s.clients.others

theorem State.allows_of_ready {s : State I A P V} {a : UserClient.Act I P} (hready : s.ready = true)
    (hretain : a.MakesReference → 0 < s.clients.others) : s.Allows a := by
  cases a with
  | begin c req => exact hready
  | call c e => exact hretain
  | finish c => exact hretain
  | ownerRetain => exact hretain
  | ownerRelease => exact hretain

theorem State.Allows.retains {s : State I A P V} {a : UserClient.Act I P} (h : s.Allows a) (ha : a.MakesReference) :
    0 < s.clients.others := by
  cases a with
  | begin c req => exact ha.elim
  | call c e => exact h ha
  | finish c => exact h ha
  | ownerRetain => exact h ha
  | ownerRelease => exact h ha

variable [DecidableEq I] [DecidableEq P]

/-! ## References -/

/-- The step retains or releases the driver. -/
def Counts : UserClient.Act I P → Prop
  | .call _ ⟨.retain _, _⟩ | .call _ ⟨.release _, _⟩ | .ownerRetain | .ownerRelease => True
  | _ => False

theorem count_of_not_counts {driver : P} {s s' : UserClient.State I P} {a : UserClient.Act I P}
    (h : UserClient.Step driver s a s') (ha : ¬ Counts a) : s'.retainCount = s.retainCount := by
  rcases UserClient.step_cases h with ⟨_, _, rfl, -, -, rfl⟩ | ⟨_, c, r, _, _, n, rfl, -, hn, rfl⟩ |
    ⟨_, _, _, _, rfl, -, rfl⟩ | ⟨rfl, rfl⟩ | ⟨rfl, -, rfl⟩
  · rfl
  · cases c with
    | retain p | release p => exact absurd trivial ha
    | osDynamicCast provider =>
      simp only [UserClient.countAfter, Option.ite_none_right_eq_some, Option.some.injEq] at hn
      exact hn.2.symm
    | superInit | superStart _ | superStop _ => exact (Option.some.inj hn).symm
  · rfl
  · exact absurd trivial ha
  · exact absurd trivial ha

section References
variable {driver : P} {s : State I A P V} {clients : UserClient.State I P} {a : UserClient.Act I P}
  {ctr : List (Tr (UserClient.State I P) (UserClient.Act I P))} {holds : Finset I}

/-- Only a driver that has a reference left is retained or released. -/
theorem alive_of_counts (hi : UserClient.Inv driver ctr s.clients holds) (hallow : s.Allows a)
    (h : UserClient.Step driver s.clients a clients) (ha : Counts a) : s.clients.retainCount ≠ 0 := by
  have hcount := hi.count
  rcases UserClient.step_cases h with ⟨_, _, rfl, -⟩ | ⟨c, call, r, req, k, n, rfl, hrun, -⟩ | ⟨_, _, _, _, rfl, -⟩ |
    ⟨rfl, -⟩ | ⟨rfl, hothers, -⟩
  · exact ha.elim
  · cases call with
    | retain p =>
      have hothers := hallow.retains trivial
      omega
    | release p =>
      -- The client gives back what it holds.
      obtain ⟨-, -, hspec⟩ := (hi.client c).busy hrun
      have hheld := (hspec.call_ok UserClient.heldAfter_total).1
      have hpos := Finset.card_pos.2 ⟨c, of_decide_eq_true hheld⟩
      omega
    | superInit | superStart _ | osDynamicCast _ | superStop _ => exact ha.elim
  · exact ha.elim
  · have hothers := hallow.retains trivial
    omega
  · omega

theorem still_zero (hi : UserClient.Inv driver ctr s.clients holds) (hallow : s.Allows a)
    (h : UserClient.Step driver s.clients a clients) (hzero : s.clients.retainCount = 0) :
    clients.retainCount = 0 :=
  (count_of_not_counts h fun ha => alive_of_counts hi hallow h ha hzero).trans hzero

end References

/-! ## The object -/

variable [DecidableEq A] [DecidableEq V]

/-- A driver object that IOKit has just initialised and has its first reference to. -/
def create (m_driver : I → Option P) (superInit : Bool) (v : Option V) : State I A P V :=
  ⟨UserClient.fresh m_driver 1, (init superInit v .new).2, (init superInit v (.new : Memory A P V)).1, false, .empty⟩

inductive Step (drv : NVIDIADriver A) (driver : P) : State I A P V → Act I A P → State I A P V → Prop
  | client {s a clients mem} : s.Allows a → UserClient.Step driver s.clients a clients →
    freeAtZero s.clients.retainCount clients.retainCount s.mem = some mem →
    Step drv driver s (.client a) { s with clients, mem }
  | badFree {s a clients} : s.Allows a → UserClient.Step driver s.clients a clients →
    freeAtZero s.clients.retainCount clients.retainCount s.mem = none → Step drv driver s .fault s
  | request {s a v ivars ivars' started world} : s.ready = true → 0 < s.clients.others → s.mem.ivars = some v →
    s.mem.blocks v = some ivars → OrderlyStep drv ⟨ivars, s.started, s.world⟩ a ⟨ivars', started, world⟩ →
    Step drv driver s (.request a) { s with
      mem := { s.mem with blocks := Function.update s.mem.blocks v (some ivars') }, started, world }
  | badRequest {s} : s.ready = true → 0 < s.clients.others → s.mem.ivars.bind s.mem.blocks = none →
    Step drv driver s .fault s

/-- The driver has its `ivars` until its last reference is gone. -/
structure Inv (driver : P) (s : State I A P V) : Prop where
  clients : ∃ ctr holds, UserClient.Inv driver ctr s.clients holds
  freed : s.clients.freed = true ↔ s.clients.retainCount = 0
  block : ∀ v, s.mem.blocks v ≠ none ↔ s.mem.ivars = some v
  alive : s.mem.ivars ≠ none ↔ s.ready = true ∧ s.clients.retainCount ≠ 0
  driver : ∃ ivars, Driver.Inv s.started ivars s.world ∧ ∀ v, s.mem.ivars = some v → s.mem.blocks v = some ivars

omit [DecidableEq A] in
theorem inv_create {driver : P} {m_driver : I → Option P} {superInit : Bool} {v : Option V} :
    Inv driver (create m_driver superInit v : State I A P V) := by
  refine ⟨⟨[], ∅, UserClient.inv_fresh⟩, by simp [create, UserClient.fresh], fun v' => ?_, ?_, ⟨none, none⟩, idle_empty,
    fun v' hv' => ?_⟩
  · cases superInit <;> cases v <;> simp [create, init, ioNewZero, Memory.new, Function.update_apply, eq_comm]
  · cases superInit <;> cases v <;> simp [create, init, ioNewZero, Memory.new, UserClient.fresh]
  · cases superInit <;> cases v <;> simp_all [create, init, ioNewZero, Memory.new]

omit [DecidableEq A] [DecidableEq P] in
/-- The object is freed with its last reference, and its block is there to be freed. -/
theorem freeAtZero_cases {m : Memory A P V} (hblock : ∀ v, m.blocks v ≠ none ↔ m.ivars = some v) (n n' : ℕ) :
    (n = 0 ∨ n' ≠ 0) ∧ freeAtZero n n' m = some m ∨
      n ≠ 0 ∧ n' = 0 ∧ ∃ m', freeAtZero n n' m = some m' ∧ m'.ivars = none ∧ ∀ v, m'.blocks v = none := by
  by_cases h : n ≠ 0 ∧ n' = 0
  · refine .inr ⟨h.1, h.2, ?_⟩
    rw [freeAtZero, if_pos h, free]
    cases hv : m.ivars with
    | none =>
      refine ⟨m, rfl, hv, fun v => ?_⟩
      by_contra hne
      have hsome := (hblock v).1 hne
      rw [hv] at hsome
      cases hsome
    | some v =>
      have hlive := (hblock v).2 hv
      refine ⟨_, if_neg (by simpa using hlive), rfl, fun v' => ?_⟩
      show Function.update m.blocks v none v' = none
      by_cases hv' : v' = v
      · rw [hv', Function.update_self]
      · rw [Function.update_of_ne hv']
        by_contra hne
        exact hv' (Option.some.inj (((hblock v').1 hne).symm.trans hv))
  · refine .inl ⟨?_, if_neg h⟩
    by_contra hne
    exact h (by simpa using hne)

theorem inv_step {drv : NVIDIADriver A} {driver : P} {s s' : State I A P V} {a : Act I A P} (hi : Inv driver s)
    (h : Step drv driver s a s') : a ≠ .fault ∧ Inv driver s' := by
  obtain ⟨⟨ctr, holds, hclients⟩, hfreed, hblock, halive, ivars, hdriver, hmem⟩ := hi
  cases h with
  | @client a clients mem hallow hst hfree =>
    obtain ⟨holds', hclients'⟩ := UserClient.inv_step hclients hst
    have hclients' : ∃ ctr holds, UserClient.Inv driver ctr clients holds := ⟨_, holds', hclients'⟩
    have hfreed' := UserClient.freed_step hclients hfreed hallow.retains hst
    refine ⟨by simp, ?_⟩
    rcases freeAtZero_cases hblock s.clients.retainCount clients.retainCount with
      ⟨hn, hsame⟩ | ⟨-, hn, m', hgiven, hnull, hgone⟩
    · rw [hsame, Option.some.injEq] at hfree
      subst hfree
      refine ⟨hclients', hfreed', hblock, ?_, ivars, hdriver, hmem⟩
      rw [halive, and_congr_right_iff]
      intro _
      have hzero := still_zero hclients hallow hst
      show s.clients.retainCount ≠ 0 ↔ clients.retainCount ≠ 0
      omega
    · rw [hgiven, Option.some.injEq] at hfree
      subst hfree
      refine ⟨hclients', hfreed', fun v => ?_, ?_, ivars, hdriver, fun v hv => ?_⟩
      · simp [hnull, hgone]
      · simp [hnull, hn]
      · rw [hnull] at hv
        cases hv
  | @badFree a clients hallow hst hfree =>
    rcases freeAtZero_cases hblock s.clients.retainCount clients.retainCount with
      ⟨-, hsame⟩ | ⟨-, -, m', hgiven, -⟩
    · rw [hfree] at hsame
      cases hsame
    · rw [hfree] at hgiven
      cases hgiven
  | @request a v ivars₁ ivars' started world hready hothers hv hivars hst =>
    obtain rfl : ivars₁ = ivars := Option.some.inj (hivars.symm.trans (hmem v hv))
    have hpre : (⟨ivars₁, s.started, s.world⟩ : Driver.State A P).Inv := hdriver
    have hinv := (Driver.step_inv hpre hst.toStep hst.stopsClean).1
    refine ⟨by simp, ⟨ctr, holds, hclients⟩, hfreed, fun v' => ?_, halive, ivars', hinv, fun v' hv' => ?_⟩
    · by_cases hv' : v' = v
      · simp [hv', hv]
      · simpa [hv'] using hblock v'
    · obtain rfl : v' = v := Option.some.inj (hv'.symm.trans hv)
      exact Function.update_self _ _ _
  | badRequest hready hothers hbad =>
    have hcount := hclients.count
    have hsome := halive.2 ⟨hready, by omega⟩
    obtain ⟨v, hv⟩ := Option.ne_none_iff_exists'.1 hsome
    rw [hv, Option.bind_some] at hbad
    exact absurd hbad ((hblock v).2 hv)

/-! ## Its life -/

/-- The step uses the driver. -/
def Uses : Act I A P → Prop
  | .client a => Counts a
  | .request _ | .fault => True

/-- The step takes the last reference. -/
def freed (x : Tr (State I A P V) (Act I A P)) : Bool :=
  decide (x.pre.clients.retainCount ≠ 0) && decide (x.post.clients.retainCount = 0)

theorem alive_of_uses {drv : NVIDIADriver A} {driver : P} {s s' : State I A P V} {a : Act I A P} (hi : Inv driver s)
    (h : Step drv driver s a s') (ha : Uses a) : s.clients.retainCount ≠ 0 := by
  obtain ⟨ctr, holds, hclients⟩ := hi.clients
  have hcount := hclients.count
  cases h with
  | client hallow hst _ => exact alive_of_counts hclients hallow hst ha
  | badFree hallow hst hfree =>
    have hbad : Step drv driver s .fault s := .badFree hallow hst hfree
    exact absurd rfl (inv_step hi hbad).1
  | request _ hothers => omega
  | badRequest _ hothers => omega

theorem step_zero {drv : NVIDIADriver A} {driver : P} {s s' : State I A P V} {a : Act I A P} (hi : Inv driver s)
    (h : Step drv driver s a s') (hzero : s.clients.retainCount = 0) : s'.clients.retainCount = 0 := by
  obtain ⟨ctr, holds, hclients⟩ := hi.clients
  cases h with
  | client hallow hst _ => exact still_zero hclients hallow hst hzero
  | _ => exact hzero

/-- However user clients, `Start`, `Stop` and the owner take turns on a driver
object: `ivars` never points nowhere when it is used or freed; the object is
freed at most once, and nothing uses it afterwards; it has its `ivars` in memory
exactly from a successful `init` until it is freed. When it is freed no client
is connected, and it leaves nothing behind exactly if it was stopped before. -/
theorem driver_freed_once {drv : NVIDIADriver A} {driver : P} {m_driver : I → Option P} {superInit : Bool}
    {v : Option V} {tr : List (Tr (State I A P V) (Act I A P))} {s : State I A P V}
    (hr : Run (Step drv driver) (create m_driver superInit v) tr s) :
    (∀ x ∈ tr, x.act ≠ .fault ∧ (Uses x.act → x.pre.clients.retainCount ≠ 0)) ∧ tr.countP freed ≤ 1 ∧
      (∀ v, s.mem.blocks v ≠ none ↔ s.mem.ivars = some v) ∧
      (s.mem.ivars ≠ none ↔ s.ready = true ∧ s.clients.retainCount ≠ 0) ∧
      (s.clients.retainCount = 0 → s.clients.connected = ∅ ∧ (Idle s.world ↔ s.started = false)) ∧
      (s.clients.freed = true ↔ s.clients.retainCount = 0) := by
  have hstep : ∀ (s : State I A P V) a s', Inv driver s → Step drv driver s a s' → Inv driver s' :=
    fun _ _ _ hi h => (inv_step hi h).2
  obtain ⟨hi, ht⟩ := hr.inv (Inv driver) inv_create hstep
  refine ⟨fun x hx => ?_, countP_le_one fun l₁ x l₂ he hx y hy => ?_, hi.block, hi.alive, fun hzero => ⟨?_, ?_⟩,
    hi.freed⟩
  · obtain ⟨hpre, hst, -⟩ := ht x hx
    exact ⟨(inv_step hpre hst).1, alive_of_uses hpre hst⟩
  · -- After it is freed the count stays at zero.
    subst he
    obtain ⟨-, -, hrest⟩ := hr.split
    have hzero : x.post.clients.retainCount = 0 := by simpa [freed] using (Bool.and_eq_true_iff.1 hx).2
    have hkeep := (hrest.inv (fun s => Inv driver s ∧ s.clients.retainCount = 0) ⟨(ht x (by simp)).2.2, hzero⟩
      fun s a s' hi h => ⟨hstep s a s' hi.1 h, step_zero hi.1 h hi.2⟩).2 y hy
    simp [freed, hkeep.1.2]
  · obtain ⟨ctr, holds, hclients⟩ := hi.clients
    have hcount := hclients.count
    have hnone : holds = ∅ := Finset.card_eq_zero.1 (by omega)
    exact Finset.subset_empty.1 (hnone ▸ hclients.connected_subset)
  · obtain ⟨ivars, hdriver, -⟩ := hi.driver
    cases hs : s.started with
    | false =>
      rw [hs] at hdriver
      exact ⟨fun _ => rfl, fun _ => hdriver⟩
    | true =>
      rw [hs] at hdriver
      obtain ⟨p, q, hrunning⟩ := hdriver
      exact ⟨fun hidle => absurd (hidle.devs p) ((hrunning.devs p).2 rfl), fun h => by cases h⟩

/-- User clients may come and go on a driver that keeps a reference. -/
theorem run_of_clients (drv : NVIDIADriver A) {driver : P} {s : State I A P V} {clients : UserClient.State I P}
    {ctr : List (Tr (UserClient.State I P) (UserClient.Act I P))}
    (hr : Run (UserClient.Step driver) s.clients ctr clients)
    (hc : ∀ x ∈ ctr, ({ s with clients := x.pre } : State I A P V).Allows x.act ∧ x.post.retainCount ≠ 0) :
    ∃ tr, Run (Step drv driver) s tr { s with clients } := by
  induction hr with
  | nil => exact ⟨[], .nil⟩
  | @snoc ctr c a c' hr hst ih =>
    obtain ⟨tr, hrun⟩ := ih fun x hx => hc x (List.mem_append_left _ hx)
    obtain ⟨hallow, hne⟩ := hc ⟨c, a, c'⟩ (by simp)
    exact ⟨_, hrun.snoc (.client hallow hst (if_neg fun h => hne h.2))⟩

/-- A client connects and leaves, and the driver is let go of without `Stop`: it leaves its device behind. -/
theorem driver_freed_once_started : ∃ (tr : List (Tr (State ℕ ℕ ℕ ℕ) (Act ℕ ℕ ℕ))) (s : State ℕ ℕ ℕ ℕ),
    Run (Step ⟨0, 0, 0⟩ 7) (create (fun _ => none) true (some 3)) tr s ∧ (s.clients.client 0).inited = true ∧
      s.clients.retainCount = 0 ∧ s.clients.connected = ∅ ∧ ¬ Idle s.world := by
  have hp : StartPath (⟨0, 0, 0⟩ : NVIDIADriver ℕ) 1 ⟨none, none⟩ _ _ _ _ := .started 0x10de 5
  obtain ⟨a, s₁, h1, hclients, hready, hstarted⟩ : ∃ a s₁,
      Step ⟨0, 0, 0⟩ 7 (create (fun _ => none) true (some 3) : State ℕ ℕ ℕ ℕ) a s₁ ∧
        s₁.clients = UserClient.fresh (fun _ => none) 1 ∧ s₁.ready = true ∧ s₁.started = true :=
    ⟨_, _, .request rfl Nat.one_pos rfl rfl (step_of_path hp), rfl, rfl, rfl⟩
  obtain ⟨ctr, clients, he, hinit, hothers, hcount, hok⟩ : ∃ ctr clients,
      exec (UserClient.step 7) (UserClient.fresh (fun _ : ℕ => none) 1)
        [.begin 0 .init, .call 0 ⟨.superInit, true⟩, .finish 0, .begin 0 (.start 7),
          .call 0 ⟨.superStart 7, kIOReturnSuccess⟩, .call 0 ⟨.osDynamicCast 7, some 7⟩, .call 0 ⟨.retain 7, ()⟩,
          .finish 0, .begin 0 (.stop 7), .call 0 ⟨.release 7, ()⟩, .call 0 ⟨.superStop 7, kIOReturnSuccess⟩,
          .finish 0] = some (ctr, clients) ∧
      (clients.client 0).inited = true ∧ clients.others = 1 ∧ clients.retainCount = 1 ∧
      (ctr.all fun x => decide (x.act.MakesReference → 0 < x.pre.others) && decide (x.post.retainCount ≠ 0)) = true :=
    ⟨_, _, rfl, rfl, rfl, rfl, rfl⟩
  have hallow : ∀ x ∈ ctr, State.Allows { s₁ with clients := x.pre } x.act ∧ x.post.retainCount ≠ 0 := by
    intro x hx
    obtain ⟨hretain, hne⟩ := Bool.and_eq_true_iff.1 (List.all_eq_true.1 hok x hx)
    exact ⟨State.allows_of_ready hready (of_decide_eq_true hretain), of_decide_eq_true hne⟩
  have hclientRun := (run_of_exec (UserClient.step 7) _ _ he).1
  rw [← hclients] at hclientRun
  obtain ⟨tr, hr⟩ := run_of_clients ⟨0, 0, 0⟩ hclientRun hallow
  have hr := Run.cons h1 hr
  have hlast : UserClient.Step 7 clients .ownerRelease { clients.setCount 0 with others := 0 } := by
    simp [UserClient.Step, UserClient.step, hothers, hcount]
  rcases freeAtZero_cases (driver_freed_once hr).2.2.1 clients.retainCount 0 with ⟨h, -⟩ | ⟨-, -, mem, hfree, -⟩
  · omega
  have hr := hr.snoc (.client (by exact False.elim) hlast hfree)
  obtain ⟨hconn, hidle⟩ := (driver_freed_once hr).2.2.2.2.1 rfl
  refine ⟨_, _, hr, hinit, rfl, hconn, fun h => ?_⟩
  rw [hidle] at h
  exact absurd (hstarted.symm.trans h) (by decide)

end PortingKit.Driver.Object

import Mathlib.Data.List.Nodup
import KsoftPWM.Model.Module
import KsoftPWM.Requests
import KsoftPWM.Unload

/-! # What softPWM leaves behind

`pwm_exit` stops every thread, unmaps the registers, gives the device number back and
frees the `struct cdev`.  Nobody frees the two tables, nobody takes the registration
back before its `struct cdev` is freed, and a `pwm_init` that fails gives back nothing
of what it has acquired before.  So the accounts are in order only if none of this was
ever acquired.
-/

namespace KsoftPWM

/-- What `pwm_exit` never gives back. -/
def Resource.kept : Resource → Bool
  | .dutyArray | .pwmTsk | .registration => true
  | _ => false

def ExitPc.left (D : Driver) (stmt : ExitStmt) : ExitPc → Nat
  | tail todo => todo.count stmt
  | _ => D.exitTail.count stmt

/-- The accounts of a life of the module, for given answers of the kernel.  A `pwm_init`
    that fails leaves nothing live.  After one that succeeds, once `pwm_exit` has returned,
    everything is released exactly once, nothing is live, and no registration refers to a
    `struct cdev` that has been freed. -/
def Accounted (answers : Answers) (gpio : Gpio) : Prop :=
  ((pwmInit answers gpio).2 < 0 → ∀ r, ¬ Ledger.Live (pwmInit answers gpio).1.ledger r) ∧
  ((pwmInit answers gpio).2 = 0 → ∀ labels tr m, inits labels ≤ maxPwmNum →
    softModule.Reaches (pwmInit answers gpio).1 labels tr m → m.sys.exit = .tail [] →
    Ledger.Balanced m.ledger ∧
      (.release .cdev ∈ m.ledger → ¬ Ledger.Live m.ledger .registration))

/-- Neither table is allocated; without a device number the registers are not mapped
    either, and with one the `struct cdev` is not registered. -/
def Answers.Spared (answers : Answers) : Prop :=
  answers.dutyArray = false ∧ answers.pwmTsk = false ∧
    match answers.allocChrdevRegion with
    | some _ => answers.ioremap = false
    | none => answers.cdev = false ∨ answers.cdevAdd ≠ none

variable {D : Driver} {m m' m₀ : Loaded} {s s' : Sys} {label : Label} {labels : List Label}
  {tr tr' : List (Agent × Event)} {answers : Answers} {gpio : Gpio}

/-! ## What `pwm_init` acquires -/

def Answers.registers (answers : Answers) : Bool := answers.cdev && answers.cdevAdd.isNone

def Answers.grants (answers : Answers) : Resource → Bool
  | .mapping => answers.ioremap
  | .dutyArray => answers.dutyArray
  | .pwmTsk => answers.pwmTsk
  | .chrdevRegion => true
  | .cdev => answers.cdev
  | .registration => answers.registers
  | .thread _ => false

theorem Loaded.count_acquire_acquire (m : Loaded) (r r' : Resource) (granted : Bool) :
    (m.acquire r granted).ledger.count (.acquire r') =
      m.ledger.count (.acquire r') + if r = r' then granted.toNat else 0 := by
  cases granted with
  | false => simp [Loaded.acquire]
  | true => simp [Loaded.acquire, List.count_cons]

theorem Loaded.count_release_acquire (m : Loaded) (r r' : Resource) (granted : Bool) :
    (m.acquire r granted).ledger.count (.release r') = m.ledger.count (.release r') := by
  cases granted <;> simp [Loaded.acquire]

theorem pwmInit_sys (answers : Answers) (gpio : Gpio) :
    (pwmInit answers gpio).1.sys = Sys.load gpio := by
  obtain ⟨_, _, _, region, cdev, add⟩ := answers
  cases region <;> cases cdev <;> cases add <;> rfl

theorem pwmInit_refused (gpio : Gpio) {why : Errno}
    (refused : answers.allocChrdevRegion = some why) :
    (pwmInit answers gpio).2 = why.value ∧
      ∀ r, Ledger.Live (pwmInit answers gpio).1.ledger r ↔
        answers.ioremap = true ∧ r = .mapping ∨ answers.dutyArray = true ∧ r = .dutyArray ∨
          answers.pwmTsk = true ∧ r = .pwmTsk := by
  refine ⟨by simp [pwmInit, refused], fun r => ?_⟩
  simp only [Ledger.Live, pwmInit, refused, Loaded.count_acquire_acquire,
    Loaded.count_release_acquire, Loaded.unset, List.count_nil]
  cases r <;> simp [Nat.pos_iff_ne_zero]

theorem pwmInit_granted (gpio : Gpio) (granted : answers.allocChrdevRegion = none) :
    (pwmInit answers gpio).2 = 0 ∧ (pwmInit answers gpio).1.gpioMap = answers.ioremap ∧
      (pwmInit answers gpio).1.cdevp = answers.registers ∧
      ∀ r, (pwmInit answers gpio).1.ledger.count (.acquire r) = (answers.grants r).toNat ∧
        (pwmInit answers gpio).1.ledger.count (.release r) =
          if r = .cdev then (answers.cdev && !answers.registers).toNat else 0 := by
  obtain ⟨ioremap, duty, tsk, region, cdev, add⟩ := answers
  subst granted
  cases cdev with
  | false =>
      refine ⟨rfl, rfl, rfl, fun r => ?_⟩
      cases r <;> simp [pwmInit, Loaded.failed, Loaded.count_acquire_acquire,
        Loaded.count_release_acquire, Loaded.unset, Answers.grants, Answers.registers]
  | true =>
      cases add with
      | some why =>
          refine ⟨rfl, rfl, rfl, fun r => ?_⟩
          cases r <;> simp [pwmInit, Loaded.failed, Loaded.count_acquire_acquire,
            Loaded.count_release_acquire, Loaded.unset, Answers.grants, Answers.registers]
      | none =>
          refine ⟨rfl, rfl, rfl, fun r => ?_⟩
          cases r <;> simp [pwmInit, Loaded.count_acquire_acquire,
            Loaded.count_release_acquire, Loaded.unset, Answers.grants, Answers.registers]

/-! ## Steps of the module -/

theorem Loaded.dereference_eq_ok {x : Traced (Agent × Event) Fault Sys}
    (run : m.dereference x = .ok tr m') : x = .ok tr m'.sys ∧ m' = m.after tr m'.sys := by
  unfold Loaded.dereference at run
  split at run
  · cases run
  · cases run
  · cases run
    exact ⟨rfl, rfl⟩

theorem Loaded.step_ok (taken : m.step label = some (.ok tr m')) :
    m.sys.serialStep .softPWM label = some (.ok tr m'.sys) ∧ m' = m.after tr m'.sys := by
  unfold Loaded.step at taken
  split at taken
  · cases taken
  · obtain ⟨x, stepped, run⟩ := Option.map_eq_some_iff.mp taken
    obtain ⟨rfl, after⟩ := Loaded.dereference_eq_ok run
    exact ⟨stepped, after⟩

theorem Unloading.serialStep (unloading : Unloading tr s)
    (taken : s.serialStep .softPWM label = some (.ok tr' s')) : Unloading (tr ++ tr') s' := by
  obtain ⟨n, reach⟩ := serialStep_reaches taken
  refine reach.guarded_induction (Q := fun tr₂ s₂ => Unloading (tr ++ tr₂) s₂)
    ((serialStep_admits taken).statements .softPWM n) (by simpa using unloading) ?_
  intro tr₂ s₂ l tr₃ s₃ held here stepped
  rw [← List.append_assoc]
  exact held.step here stepped

theorem Sys.ExitMove.left {raw : List Event} (move : Sys.ExitMove D s s' raw) (stmt : ExitStmt) :
    raw.count (.exit stmt) + s'.exit.left D stmt = s.exit.left D stmt := by
  cases move with
  | start at_ | stop at_ | leave at_ | joined at_ => simp [at_, ExitPc.left]
  | tail at_ =>
      simp only [at_, ExitPc.left, List.count_cons, List.count_nil, beq_iff_eq, Event.exit.injEq]
      omega

theorem serialStep_left (inv : s.Inv D) (idle : s.call = none)
    (taken : s.serialStep D label = some (.ok tr s')) (stmt : ExitStmt) :
    tr.count (.exit, .exit stmt) + s'.exit.left D stmt = s.exit.left D stmt := by
  cases serialStep_moves inv idle taken with
  | request => rw [count_foreign (by decide), Nat.zero_add]
  | task step => rw [step.trace, step.after, count_foreign (by simp), Nat.zero_add]
  | exit move _ => rw [count_exit, move.left]

theorem serialStep_length_le (inv : s.Inv D) (idle : s.call = none)
    (taken : s.serialStep D label = some (.ok tr s')) :
    s.world.tasks.length ≤ s'.world.tasks.length := by
  cases serialStep_moves inv idle taken with
  | request _ run =>
      rcases ioctl_tasks (inv.settled idle).bound run with ⟨-, -, t, tasks, -⟩ | ⟨-, -, tasks⟩
      · simp [tasks]
      · simp [tasks]
  | task step => simp [step.after, World.jump, tasks_driven]
  | exit move _ => exact move.grows.length_le

/-! ## The ledger of a run -/

/-- What the ledger holds after a run that began with the ledger of `m₀`. -/
structure Booked (m₀ : Loaded) (tr : List (Agent × Event)) (m : Loaded) : Prop where
  unloading : Unloading tr m.sys
  idle : m.sys.call = none
  left : ∀ stmt, tr.count (.exit, .exit stmt) + m.sys.exit.left .softPWM stmt =
    Driver.softPWM.exitTail.count stmt
  frees : m.frees = m₀.frees
  acquired : ∀ r, m.ledger.count (.acquire r) = m₀.ledger.count (.acquire r) +
    ((List.range m.sys.world.tasks.length).map Resource.thread).count r
  released : ∀ r, m.ledger.count (.release r) = m₀.ledger.count (.release r) +
    (tr.filterMap m₀.frees).count r

theorem Booked.step (booked : Booked m₀ tr m) (taken : m.step label = some (.ok tr' m')) :
    Booked m₀ (tr ++ tr') m' := by
  obtain ⟨stepped, after⟩ := Loaded.step_ok taken
  have inv := booked.unloading.inv
  have length := serialStep_length_le inv booked.idle stepped
  have ledger : m'.ledger = m.ledger ++
      (((List.range m'.sys.world.tasks.length).drop m.sys.world.tasks.length).map
        Resource.thread).map Entry.acquire ++ (tr'.filterMap m₀.frees).map Entry.release := by
    rw [after, Loaded.after, List.map_map, booked.frees]
    rfl
  exact
    { unloading := booked.unloading.serialStep stepped
      idle := (serialStep_idle inv booked.idle stepped).2
      left := by
        intro stmt
        have before := booked.left stmt
        have now := serialStep_left inv booked.idle stepped stmt
        rw [List.count_append]
        omega
      frees := by
        rw [after]
        exact booked.frees
      acquired := by
        intro r
        -- the threads there were, and the new ones
        have threads := congrArg (fun ks => (ks.map Resource.thread).count r)
          (List.take_append_drop m.sys.world.tasks.length
            (List.range m'.sys.world.tasks.length))
        simp only [List.take_range, Nat.min_eq_left length, List.map_append,
          List.count_append] at threads
        rw [ledger, List.count_append, List.count_append, (Ledger.count_acquire _ r).1,
          (Ledger.count_acquire _ r).2, booked.acquired]
        omega
      released := by
        intro r
        rw [ledger, List.count_append, List.count_append, (Ledger.count_release _ r).1,
          (Ledger.count_release _ r).2, booked.released, List.filterMap_append, List.count_append]
        omega }

theorem Booked.of_reaches (start : m₀.sys = Sys.load gpio)
    (reach : softModule.Reaches m₀ labels tr m) : Booked m₀ tr m := by
  refine reach.induction (Q := fun _ tr m => Booked m₀ tr m) ?_
    (fun _ booked taken => booked.step taken)
  exact
    { unloading := start ▸ Unloading.load gpio
      idle := by rw [start]; rfl
      left := by rw [start]; simp [Sys.load, ExitPc.left]
      frees := rfl
      acquired := by rw [start]; simp [Sys.load, World.load]
      released := by simp }

def Loaded.freedBy (m : Loaded) : Resource → Option (Agent × Event)
  | .thread k => some (.exit, .stop k)
  | .mapping => if m.gpioMap then some (.exit, .exit .iounmap) else none
  | .chrdevRegion => some (.exit, .exit .unregisterChrdevRegion)
  | .cdev => if m.cdevp then some (.exit, .exit .kfreeCdev) else none
  | .dutyArray | .pwmTsk | .registration => none

theorem Loaded.frees_eq_some (m : Loaded) (r : Resource) (e : Agent × Event) :
    m.frees e = some r ↔ m.freedBy r = some e := by
  obtain ⟨agent, event⟩ := e
  cases agent with
  | client | task => cases r <;> simp [Loaded.frees, Loaded.freedBy]
  | exit =>
      cases event with
      | stop k =>
          cases r with
          | thread j => simpa [Loaded.frees, Loaded.freedBy] using eq_comm
          | mapping | dutyArray | pwmTsk | chrdevRegion | cdev | registration =>
              simp [Loaded.frees, Loaded.freedBy]
      | exit stmt => cases stmt <;> cases r <;> simp [Loaded.frees, Loaded.freedBy]
      | subscript | gpio | duty | sleep | ret => cases r <;> simp [Loaded.frees, Loaded.freedBy]

/-! ## The end of a life -/

theorem count_threads (n : Nat) (r : Resource) :
    ((List.range n).map Resource.thread).count r =
      match r with
      | .thread k => if k < n then 1 else 0
      | _ => 0 := by
  cases r with
  | thread k =>
      rw [List.count_map_of_injective _ _ (fun _ _ => Resource.thread.inj)]
      simp [List.count_range]
  | mapping | dutyArray | pwmTsk | chrdevRegion | cdev | registration =>
      simp [List.count_eq_zero]

theorem Booked.count_acquired (granted : answers.allocChrdevRegion = none)
    (booked : Booked (pwmInit answers gpio).1 tr m) (r : Resource) :
    m.ledger.count (.acquire r) = (answers.grants r).toNat +
      match r with
      | .thread k => if k < m.sys.world.tasks.length then 1 else 0
      | _ => 0 := by
  obtain ⟨-, -, -, counts⟩ := pwmInit_granted gpio granted
  rw [booked.acquired, (counts r).1, count_threads]

theorem Booked.exit_once (booked : Booked m₀ tr m) (done : m.sys.exit = .tail [])
    (stmt : ExitStmt) (member : stmt ∈ Driver.softPWM.exitTail) :
    tr.count (.exit, .exit stmt) = 1 := by
  have left := booked.left stmt
  rw [done, ExitPc.left, List.count_nil, Nat.add_zero] at left
  rw [left]
  exact List.count_eq_one_of_mem (by decide) member

/-- Whatever is not kept has been released as often as it was acquired: the threads by
    their stopping, the `struct cdev` here or by `pwm_init`, the rest by its statement. -/
theorem Booked.count_released (granted : answers.allocChrdevRegion = none)
    (booked : Booked (pwmInit answers gpio).1 tr m) (done : m.sys.exit = .tail [])
    (r : Resource) :
    m.ledger.count (.release r) = if r.kept then 0 else m.ledger.count (.acquire r) := by
  obtain ⟨-, mapped, allocated, counts⟩ := pwmInit_granted gpio granted
  rw [booked.released, (counts r).2, Ledger.count_filterMap _ (Loaded.frees_eq_some _ r),
    booked.count_acquired granted]
  cases r with
  | thread k =>
      have threads := (booked.unloading.inv.settled booked.idle).threads
      have stopped := booked.unloading.stopped k
      rw [done, ExitPc.stops, ← threads] at stopped
      simpa [Loaded.freedBy, Resource.kept, Answers.grants] using stopped
  | mapping =>
      have unmapped := booked.exit_once done .iounmap (by decide)
      rw [Loaded.freedBy, mapped]
      cases ioremap : answers.ioremap <;> simp [Resource.kept, Answers.grants, ioremap, unmapped]
  | chrdevRegion =>
      have unregistered := booked.exit_once done .unregisterChrdevRegion (by decide)
      simp [Loaded.freedBy, Resource.kept, Answers.grants, unregistered]
  | cdev =>
      have freed := booked.exit_once done .kfreeCdev (by decide)
      rw [Loaded.freedBy, allocated]
      cases cdev : answers.cdev <;> cases add : answers.cdevAdd <;>
        simp [Resource.kept, Answers.grants, Answers.registers, cdev, add, freed]
  | dutyArray | pwmTsk | registration => simp [Loaded.freedBy, Resource.kept]

/-- When `pwm_exit` has returned, exactly the tables and the registration are left. -/
theorem keeps_after_exit (granted : answers.allocChrdevRegion = none)
    (reach : softModule.Reaches (pwmInit answers gpio).1 labels tr m)
    (done : m.sys.exit = .tail []) :
    Ledger.Keeps Resource.kept m.ledger ∧
      ∀ r, r.kept = true → (.acquire r ∈ m.ledger ↔ answers.grants r = true) := by
  have booked := Booked.of_reaches (pwmInit_sys answers gpio) reach
  refine ⟨⟨fun r => ?_, booked.count_released granted done⟩, fun r kept => ?_⟩
  · rw [booked.count_acquired granted]
    cases r with
    | thread k =>
        simp only [Answers.grants, Bool.toNat_false, Nat.zero_add]
        split <;> simp
    | mapping | dutyArray | pwmTsk | chrdevRegion | cdev | registration =>
        simpa using Bool.toNat_le _
  · rw [← List.count_pos_iff, booked.count_acquired granted]
    cases r with
    | dutyArray | pwmTsk | registration => simp [Nat.pos_iff_ne_zero]
    | mapping | chrdevRegion | cdev | thread => cases kept

theorem exit_alone (start : m.sys = Sys.load gpio) :
    ∃ tr m', softModule.Reaches m (List.replicate 5 .exit) tr m' ∧ m'.sys.exit = .tail [] := by
  obtain ⟨_, _, _, _, _, sys⟩ := m
  subst start
  exact ⟨_, _, rfl, rfl⟩

theorem spared_of_refused {why : Errno} (refused : answers.allocChrdevRegion = some why) :
    answers.Spared ↔ answers.dutyArray = false ∧ answers.pwmTsk = false ∧
      answers.ioremap = false := by
  simp only [Answers.Spared, refused]

theorem spared_of_granted (granted : answers.allocChrdevRegion = none) :
    answers.Spared ↔ ∀ r : Resource, r.kept = true → ¬ answers.grants r = true := by
  have registers : answers.registers = false ↔ answers.cdev = false ∨ answers.cdevAdd ≠ none := by
    cases cdev : answers.cdev <;> cases add : answers.cdevAdd <;>
      simp [Answers.registers, cdev, add]
  simp only [Answers.Spared, granted, ← registers]
  constructor
  · rintro ⟨duty, tsk, unregistered⟩ r kept
    cases r with
    | dutyArray => simpa [Answers.grants] using duty
    | pwmTsk => simpa [Answers.grants] using tsk
    | registration => simpa [Answers.grants] using unregistered
    | mapping | chrdevRegion | cdev | thread => cases kept
  · intro spared
    exact ⟨by simpa [Answers.grants] using spared .dutyArray rfl,
      by simpa [Answers.grants] using spared .pwmTsk rfl,
      by simpa [Answers.grants] using spared .registration rfl⟩

/-- The accounts of a life of the module are in order exactly for the answers that spare
    it what it does not give back. -/
theorem resources_accounted_iff (answers : Answers) (gpio : Gpio) :
    Accounted answers gpio ↔ answers.Spared := by
  cases region : answers.allocChrdevRegion with
  | some why =>
      obtain ⟨ret, live⟩ := pwmInit_refused gpio region
      have negative := why.value_neg
      rw [spared_of_refused region]
      constructor
      · intro accounted
        have clear := accounted.1 (ret ▸ negative)
        simp only [live] at clear
        exact ⟨by simpa using clear .dutyArray, by simpa using clear .pwmTsk,
          by simpa using clear .mapping⟩
      · rintro ⟨duty, tsk, unmapped⟩
        refine ⟨fun _ r held => ?_, fun zero => absurd zero (by omega)⟩
        rw [live, duty, tsk, unmapped] at held
        simp at held
  | none =>
      obtain ⟨ret, -⟩ := pwmInit_granted gpio region
      rw [spared_of_granted region]
      constructor
      · intro accounted r kept
        obtain ⟨tr, m, reach, done⟩ := exit_alone (pwmInit_sys answers gpio)
        obtain ⟨balanced, -⟩ := accounted.2 ret _ tr m (by decide) reach done
        obtain ⟨keeps, acquired⟩ := keeps_after_exit region reach done
        rw [← acquired r kept]
        exact keeps.balanced_iff.mp balanced r kept
      · intro spared
        refine ⟨fun negative => absurd negative (by omega), fun _ labels tr m _ reach done => ?_⟩
        obtain ⟨keeps, acquired⟩ := keeps_after_exit region reach done
        have balanced : Ledger.Balanced m.ledger := by
          refine keeps.balanced_iff.mpr fun r kept member => ?_
          exact spared r kept ((acquired r kept).mp member)
        exact ⟨balanced, fun _ => balanced.clear .registration⟩

/-- A module that is granted everything, serves no request and is unloaded: both tables are
    left, and the registration refers to a `struct cdev` that has been freed. -/
theorem granted_module_leaks :
    (pwmInit ⟨true, true, true, none, true, none⟩ .reset).2 = 0 ∧
      (∃ tr m, softModule.Reaches (pwmInit ⟨true, true, true, none, true, none⟩ .reset).1
          (List.replicate 5 .exit) tr m ∧ m.sys.exit = .tail [] ∧
        Ledger.Live m.ledger .dutyArray ∧ Ledger.Live m.ledger .pwmTsk ∧
        .release .cdev ∈ m.ledger ∧ Ledger.Live m.ledger .registration) ∧
      ¬ Accounted ⟨true, true, true, none, true, none⟩ .reset := by
  obtain ⟨tr, m, reach, test⟩ := Machine.exists_reaches softModule
    (pwmInit ⟨true, true, true, none, true, none⟩ .reset).1 (List.replicate 5 .exit)
    (fun _ m => decide (m.sys.exit = .tail [] ∧ Ledger.Live m.ledger .dutyArray ∧
      Ledger.Live m.ledger .pwmTsk ∧ .release .cdev ∈ m.ledger ∧
      Ledger.Live m.ledger .registration)) (by decide)
  have leaks := of_decide_eq_true test
  refine ⟨rfl, ⟨tr, m, reach, leaks⟩, fun accounted => ?_⟩
  obtain ⟨balanced, -⟩ := accounted.2 rfl _ tr m (by decide) reach leaks.1
  exact balanced.clear .dutyArray leaks.2.1

end KsoftPWM

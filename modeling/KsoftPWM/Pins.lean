import KsoftPWM.Base.Replay
import KsoftPWM.Ownership

/-! # Pins that share the set and clear words

All tasks and all `GPIO_SET` requests write the same two words, 7 and 10.  For the
pins 0..31 such a store has a one bit at its own pin only, so the level of a pin is
decided by the stores issued for it, in their order, and by nothing else that goes
on in the meantime.  Pin 31 is the sign bit of the C expression and no exception.
-/

namespace KsoftPWM

/-- A pin that words 7 and 10 reach. -/
def Banked (pin : Int32) : Prop := 0 ≤ pin.toInt ∧ pin.toInt < 32

instance : DecidablePred Banked := fun _ => inferInstanceAs (Decidable (_ ∧ _))

/-- The register accesses of a trace, with the pin each one was issued for. -/
def storesOf (tr : List (Agent × Event)) : List (Int32 × Access) :=
  tr.filterMap fun e =>
    match e.2 with
    | .gpio pin access => some (pin, access)
    | _ => none

def storesFor (p : Fin 54) (tr : List (Agent × Event)) : List (Int32 × Access) :=
  (storesOf tr).filter fun o => o.1.toInt = p.val

def Gpio.replays (g : Gpio) (ops : List (Int32 × Access)) : Gpio :=
  ops.foldl (fun g o => g.replay o.2) g

/-- A store of `gpio_set` or `gpio_clr` for a pin they reach. -/
def Drives (o : Int32 × Access) : Prop :=
  Banked o.1 ∧
    (o.2 = .store 7 (shl 1 o.1.toInt) ∨ o.2 = .store 10 (shl 1 o.1.toInt))

theorem selects_shl {n : Int} (low : 0 ≤ n) (high : n < 32) (p : Fin 54) :
    Gpio.selects 0 (shl 1 n) p = decide (n = p.val) := by
  obtain ⟨m, rfl⟩ := Int.eq_ofNat_of_zero_le low
  have amount : ((m : Int) % 256).toNat = m := by omega
  simp only [Gpio.selects, shl, amount, BitVec.getLsbD_shiftLeft]
  rw [Bool.eq_iff_iff]
  simp
  omega

def Gpio.levelAt (g : Gpio) (i : Int) : Bool :=
  if h : 0 ≤ i ∧ i < 54 then g.levels ⟨i.toNat, by omega⟩ else false

theorem Gpio.levelAt_val (g : Gpio) (p : Fin 54) : g.levelAt p.val = g.levels p := by
  have range : 0 ≤ (p.val : Int) ∧ (p.val : Int) < 54 := by omega
  simp [levelAt, range]

/-- A driving store gives its own pin the level, whatever it was, and leaves every
    other pin alone. -/
theorem Drives.replay {o : Int32 × Access} (drives : Drives o) :
    ∃ level, ∀ (g : Gpio) p, (g.replay o.2).levels p =
      if o.1.toInt = p.val then level else g.levels p := by
  obtain ⟨⟨low, high⟩, set | clr⟩ := drives
  · refine ⟨true, fun g p => ?_⟩
    simp only [set, Gpio.replay, Gpio.store, ↓reduceIte, Gpio.drive, selects_shl low high,
      decide_eq_true_eq]
  · refine ⟨false, fun g p => ?_⟩
    simp only [clr, Gpio.replay, Gpio.store, Int.reduceEq, ↓reduceIte, Gpio.drive,
      selects_shl low high, decide_eq_true_eq]

theorem drives_local :
    LocalOps (fun (g : Gpio) (o : Int32 × Access) => g.replay o.2) Gpio.levelAt
      (fun o => o.1.toInt) Drives where
  frame := by
    intro g o i drives other
    obtain ⟨level, replayed⟩ := drives.replay
    unfold Gpio.levelAt
    split
    · rename_i range
      have apart : ¬ o.1.toInt = (i.toNat : Int) := by omega
      rw [replayed, if_neg apart]
    · rfl
  depends := by
    intro g g' o drives _
    obtain ⟨level, replayed⟩ := drives.replay
    obtain ⟨low, high⟩ := drives.1
    have range : 0 ≤ o.1.toInt ∧ o.1.toInt < 54 := by omega
    have same : o.1.toInt = (o.1.toInt.toNat : Int) := by omega
    rw [Gpio.levelAt, Gpio.levelAt, dif_pos range, dif_pos range, replayed, replayed,
      if_pos same, if_pos same]

/-! ## Steps -/

/-- The steps of the tasks and the `GPIO_SET` requests for a pin of the bank. -/
def PinTraffic : Label → Prop
  | .task _ _ => True
  | .request (.gpioSet pin _) _ => Banked pin
  | _ => False

def Sys.OnPins (s : Sys) : Prop :=
  ∀ (k : Nat) (t : Task), s.world.tasks[k]? = some t →
    ∃ slot, s.world.dutyArray[t.pos]? = some slot ∧ Banked slot.pin

def Sys.pinOf (s : Sys) : Label → Option Int32
  | .task k _ => do
      let t ← s.world.tasks[k]?
      let slot ← s.world.dutyArray[t.pos]?
      pure slot.pin
  | .request (.gpioSet pin _) _ => some pin
  | _ => none

theorem storesOf_append (tr tr' : List (Agent × Event)) :
    storesOf (tr ++ tr') = storesOf tr ++ storesOf tr' :=
  List.filterMap_append

variable {D : Driver} {s s' : Sys} {tr : List (Agent × Event)}

/-- What a step does to the register block, in terms of the stores it reports. -/
structure StoresOnly (pin : Int32) (before after : Gpio) (ops : List (Int32 × Access)) : Prop where
  drives : ∀ o ∈ ops, Drives o ∧ o.1 = pin
  replayed : after = before.replays ops

theorem taskStep_stores {k : Nat} {swap : Bool} (onPins : s.OnPins)
    (taken : D.system.step s (.task k swap) = some (.ok tr s')) :
    s'.OnPins ∧ ∃ pin, s.pinOf (.task k swap) = some pin ∧
      StoresOnly pin s.world.gpio s'.world.gpio (storesOf tr) := by
  obtain ⟨x, stepped, shape⟩ := Option.map_eq_some_iff.mp taken
  obtain ⟨t, here, -⟩ := Driver.pwmTask_some stepped
  obtain ⟨slot, held, banked⟩ := onPins k t here
  obtain ⟨inside, rfl⟩ := Vector.getElem?_eq_some_iff.mp held
  obtain ⟨pc, raw, level, move, rfl⟩ := Driver.pwmTask_move here inside stepped
  simp only [Traced.tag_ok, Traced.ok_bind, Traced.pure_eq, Traced.after_ok, List.append_nil,
    Traced.ok.injEq] at shape
  obtain ⟨rfl, rfl⟩ := shape
  constructor
  · intro j t' there
    have moved : (s.world.tasks[j]?).map Task.pos = some t'.pos := by
      rw [World.jump, tasks_driven, List.getElem?_modify] at there
      obtain ⟨t₀, old, rfl⟩ := Option.map_eq_some_iff.mp there
      rw [old]
      split <;> rfl
    obtain ⟨t₀, old, pos⟩ := Option.map_eq_some_iff.mp moved
    have kept := onPins j t₀ old
    rw [pos] at kept
    cases level <;> exact kept
  · refine ⟨s.world.dutyArray[t.pos].pin, by simp [Sys.pinOf, here, held], ?_⟩
    generalize t.pc = before at move
    cases move with
    | entry | halt | goOn | eval | sleep =>
        exact ⟨by simp [storesOf], rfl⟩
    | set => exact ⟨by simp [storesOf, Drives, banked], rfl⟩
    | clr => exact ⟨by simp [storesOf, Drives, banked], rfl⟩

theorem gpioStatus_stores {pin status : Int32} (banked : Banked pin) {w w' : World}
    {raw : List Event} (run : gpioStatus pin status w = .ok raw w') :
    StoresOnly pin w.gpio w'.gpio (storesOf (raw.map (Agent.client, ·))) ∧
      w'.tasks = w.tasks ∧ w'.dutyArray = w.dutyArray := by
  unfold gpioStatus at run
  split at run
  · cases run
    exact ⟨⟨by simp [storesOf], rfl⟩, rfl, rfl⟩
  · split at run
    · rw [World.onGpio_gpioClr] at run
      cases run
      exact ⟨⟨by simp [storesOf, Drives, banked], rfl⟩, rfl, rfl⟩
    · rw [World.onGpio_gpioSet] at run
      cases run
      exact ⟨⟨by simp [storesOf, Drives, banked], rfl⟩, rfl, rfl⟩

/-- One step of the traffic: the tasks keep their pins, and the block changes by the
    step's own stores, all for the pin the step is for. -/
theorem Sys.OnPins.step {label : Label} (onPins : s.OnPins) (traffic : PinTraffic label)
    (taken : D.system.step s label = some (.ok tr s')) :
    s'.OnPins ∧ ∃ pin, s.pinOf label = some pin ∧
      StoresOnly pin s.world.gpio s'.world.gpio (storesOf tr) := by
  cases label with
  | statement | exit => exact traffic.elim
  | task k swap => exact taskStep_stores onPins taken
  | request req outcome =>
      cases req with
      | pinSet | pwmInit | pwmSet => exact traffic.elim
      | gpioSet pin status =>
          change (if s.call = none ∧ D.accepts s.exit then
            some ((s.advance (.gpioSet pin status)).tag (Agent.client, ·)) else none) = _ at taken
          split at taken
          · obtain ⟨raw, gpio, run, -⟩ := gpioStatus_keeps pin status s.world
            obtain ⟨stores, tasks, slots⟩ := gpioStatus_stores traffic run
            rw [Sys.advance_returned (Call.step_gpioSet run)] at taken
            simp only [Traced.tag_ok, Option.some.injEq, Traced.ok.injEq] at taken
            obtain ⟨rfl, rfl⟩ := taken
            have returned : storesOf ((raw ++ [Event.ret 0]).map (Agent.client, ·)) =
                storesOf (raw.map (Agent.client, ·)) := by
              simp [storesOf]
            rw [returned]
            exact ⟨onPins, pin, rfl, stores⟩
          · simp at taken

theorem Sys.OnPins.run {labels : List Label} (onPins : s.OnPins)
    (traffic : ∀ l ∈ labels, PinTraffic l) (reach : D.system.Reaches s labels tr s') :
    s'.OnPins ∧ (∀ o ∈ storesOf tr, Drives o) ∧
      s'.world.gpio = s.world.gpio.replays (storesOf tr) := by
  have guarded : D.system.Guarded (fun _ l => PinTraffic l) s labels :=
    Machine.Guarded.of_forall (fun l member _ => traffic l member)
  refine reach.guarded_induction guarded (Q := fun tr s' => s'.OnPins ∧
    (∀ o ∈ storesOf tr, Drives o) ∧ s'.world.gpio = s.world.gpio.replays (storesOf tr))
    ⟨onPins, by simp [storesOf], rfl⟩ ?_
  rintro tr s₁ label tr' s₂ ⟨on₁, drives, replayed⟩ here taken
  obtain ⟨on₂, pin, -, stores⟩ := on₁.step here taken
  rw [storesOf_append]
  refine ⟨on₂, ?_, ?_⟩
  · intro o member
    rcases List.mem_append.mp member with old | new
    · exact drives o old
    · exact (stores.drives o new).1
  · rw [stores.replayed, replayed, Gpio.replays, Gpio.replays, Gpio.replays, List.foldl_append]

/-- The level of each pin after any interleaving is the one its own stores give;
    interleavings that agree on the order of the stores of each pin agree on all
    levels; and no step changes a pin it is not for. -/
theorem pins_do_not_interfere (D : Driver) (s s' : Sys) (labels : List Label)
    (tr : List (Agent × Event)) (onPins : s.OnPins) (traffic : ∀ l ∈ labels, PinTraffic l)
    (reach : D.system.Reaches s labels tr s') :
    (∀ p, s'.world.gpio.levels p = (s.world.gpio.replays (storesFor p tr)).levels p) ∧
    (∀ (r r' : Sys) (labels' : List Label) (tr' : List (Agent × Event)), r.OnPins →
      (∀ l ∈ labels', PinTraffic l) → D.system.Reaches r labels' tr' r' →
      r.world.gpio.levels = s.world.gpio.levels → (∀ p, storesFor p tr' = storesFor p tr) →
      r'.world.gpio.levels = s'.world.gpio.levels) ∧
    ∀ pre label post tr₁ s₁ tr₂ s₂, labels = pre ++ label :: post →
      D.system.Reaches s pre tr₁ s₁ → D.system.step s₁ label = some (.ok tr₂ s₂) →
      ∃ pin, s₁.pinOf label = some pin ∧ ∀ p : Fin 54, pin.toInt ≠ p.val →
        s₂.world.gpio.levels p = s₁.world.gpio.levels p := by
  obtain ⟨-, drives, replayed⟩ := onPins.run traffic reach
  refine ⟨?_, ?_, ?_⟩
  · intro p
    rw [replayed, ← Gpio.levelAt_val, ← Gpio.levelAt_val]
    exact drives_local.read_foldl drives rfl
  · intro r r' labels' tr' onPins' traffic' reach' levels order
    obtain ⟨-, drives', replayed'⟩ := onPins'.run traffic' reach'
    funext p
    rw [replayed, replayed', ← Gpio.levelAt_val, ← Gpio.levelAt_val]
    refine drives_local.read_foldl_congr drives' drives ?_ (order p)
    rw [Gpio.levelAt_val, Gpio.levelAt_val, levels]
  · rintro pre label post tr₁ s₁ tr₂ s₂ rfl left taken
    have before : ∀ l ∈ pre, PinTraffic l := fun l member =>
      traffic l (List.mem_append_left _ member)
    have here : PinTraffic label := traffic label (by simp)
    obtain ⟨on₁, -, -⟩ := onPins.run before left
    obtain ⟨-, pin, target, stores⟩ := on₁.step here taken
    refine ⟨pin, target, fun p other => ?_⟩
    have foreign : (storesOf tr₂).filter (fun o => o.1.toInt = (p.val : Int)) = [] := by
      rw [List.filter_eq_nil_iff]
      intro o member
      rw [(stores.drives o member).2]
      simpa using other
    rw [stores.replayed, ← Gpio.levelAt_val, ← Gpio.levelAt_val]
    refine (drives_local.read_foldl (fun o member => (stores.drives o member).1) rfl).trans ?_
    rw [foreign]
    rfl

/-- The tasks of pins 16 and 31 set their pins, with a `GPIO_SET` of pin 5 between. -/
theorem pins_do_not_interfere_three :
    let slots := (World.load .reset).dutyArray.set 0 ⟨16, 50, 0, 100⟩ |>.set 1 ⟨31, 50, 0, 100⟩
    let tasks : List Task := [⟨0, "pwmtask_1", ⟨16, 0, 100⟩, false, .set⟩,
      ⟨1, "pwmtask_2", ⟨31, 0, 100⟩, false, .set⟩]
    let s : Sys := ⟨{ World.load .reset with dutyArray := slots, tasks := tasks }, none, .idle⟩
    ∃ tr s', Driver.softPWM.system.Reaches s
        [.task 1 false, .request (.gpioSet 5 1) .created, .task 0 false] tr s' ∧
      s'.world.gpio.levels 31 = true ∧
      ∀ p, s'.world.gpio.levels p = (s.world.gpio.replays (storesFor p tr)).levels p := by
  intro slots tasks s
  obtain ⟨tr, s', reach, high⟩ := Machine.exists_reaches Driver.softPWM.system s
    [.task 1 false, .request (.gpioSet 5 1) .created, .task 0 false]
    (fun _ s' => s'.world.gpio.levels 31) (by decide)
  have onPins : s.OnPins := by
    intro k t here
    match k with
    | 0 => cases here; exact ⟨_, rfl, by decide⟩
    | 1 => cases here; exact ⟨_, rfl, by decide⟩
    | k + 2 => simp [s, tasks] at here
  have traffic : ∀ l ∈ [Label.task 1 false, .request (.gpioSet 5 1) .created, .task 0 false],
      PinTraffic l := by
    simp [PinTraffic, Banked]
  exact ⟨tr, s', reach, high,
    (pins_do_not_interfere .softPWM s s' _ tr onPins traffic reach).1⟩

end KsoftPWM

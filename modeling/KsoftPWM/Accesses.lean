import KsoftPWM.Contention

/-! # Statements and their accesses

A statement of `PWM_INIT` takes effect with one of its accesses.  Those before that one only
read, and what comes after it is the storing of a thread in the task table.  If the request has
read what is there, the access does what the statement does.
-/

namespace KsoftPWM

/-- Everything is seen but the subscripts. -/
def Occurrence.shown : Occurrence → Option Occurrence
  | .event (.subscript ..) => none
  | o => some o

def Hidden (raw : List Event) : Prop := ∀ e ∈ raw, (Occurrence.event e).shown = none

/-- The access with which a statement takes effect. -/
def Stmt.effect : Stmt → InitOp
  | .kthreadCreate => .kthreadCreate
  | .isErr => .isErr
  | .setPin => .setPin
  | .setMin => .setMin
  | .setMax => .setMax
  | .setDuty value => .setDuty value
  | .printk => .printField
  | .rtdmPrintk => .name
  | .wakeUp => .wakeUp
  | .rtdmTaskInit => .rtdmTaskInit
  | .incr => .storeCount

/-- What it reads before. -/
def Stmt.reads : Stmt → List InitOp
  | .kthreadCreate => [.position, .index, .name]
  | .printk => (List.replicate 3 [.index, .printField]).flatten ++ [.index]
  | .rtdmPrintk => (List.replicate 4 [.index, .printField]).flatten ++ [.index]
  | .rtdmTaskInit => [.index, .name, .position, .index]
  | _ => [.index]

/-- What it stores afterwards. -/
def Stmt.trailing : Stmt → List InitOp
  | .kthreadCreate => [.index, .storeTask]
  | _ => []

theorem Stmt.ops_eq (stmt : Stmt) : stmt.ops = stmt.reads ++ stmt.effect :: stmt.trailing := by
  cases stmt <;> rfl

theorem flatMap_ops_ne_nil {rest : List Stmt} (more : rest ≠ []) : rest.flatMap Stmt.ops ≠ [] := by
  obtain ⟨stmt, rest, rfl⟩ := List.exists_cons_of_ne_nil more
  simp [Stmt.ops_eq]

/-- What a request has read is what is there. -/
structure Opener.UpToDate (count : Nat) (o : Opener) (done : List InitOp) : Prop where
  index : .index ∈ done → o.index = count
  position : .position ∈ done → o.position = count
  name : .name ∈ done → taskName[count]? = some o.name

/-- The request runs with these arguments, and nothing has failed. -/
def Opener.Fresh (args : InitArgs) (outcome : CreateOutcome) (o : Opener) : Prop :=
  o.args = args ∧ o.outcome = outcome ∧ o.err = 0

variable {w w' : World} {o o' : Opener} {op : InitOp} {args : InitArgs} {outcome : CreateOutcome}
  {stmt : Stmt} {done left more : List InitOp} {raw tr : List Event}

/-! ## One access -/

theorem hidden_shown (hidden : Hidden raw) :
    (raw.map Occurrence.event).filterMap Occurrence.shown = [] := by
  rw [List.filterMap_map]
  exact List.filterMap_eq_nil_iff.mpr hidden

theorem hidden_nil : Hidden [] := List.forall_mem_nil _

theorem hidden_subscript {table : Table} {i : Nat} : Hidden [.subscript table i] := by
  simp [Hidden, Occurrence.shown]

theorem hidden_subscripts {table table' : Table} {i j : Nat} :
    Hidden [.subscript table i, .subscript table' j] := by
  simp [Hidden, Occurrence.shown]

/-- An access reads, or comes after a reading of `pwm_pin_count`. -/
theorem Stmt.reads_split (split : stmt.reads = done ++ left) :
    left.head? = some .index ∨ left.head? = some .position ∨ .index ∈ done := by
  have all : ∀ reads ∈ [[.index], [.position, .index, .name], [.index, .name, .position, .index],
      (List.replicate 3 [.index, .printField]).flatten ++ [.index],
      (List.replicate 4 [.index, .printField]).flatten ++ [InitOp.index]],
      ∀ done ∈ reads.inits, (reads.drop done.length).head? = some .index ∨
        (reads.drop done.length).head? = some .position ∨ .index ∈ done := by
    decide
  have rest : stmt.reads.drop done.length = left := by
    rw [split, List.drop_left]
  have member : done ∈ stmt.reads.inits := (List.mem_inits _ _).mpr ⟨left, split.symm⟩
  rw [← rest]
  refine all stmt.reads ?_ done member
  cases stmt <;> simp [Stmt.reads]

theorem Stmt.mem_reads (member : op ∈ stmt.reads) :
    op = .index ∨ op = .position ∨ op = .name ∨ op = .printField := by
  cases stmt <;> simp only [Stmt.reads, List.replicate, List.flatten_cons, List.flatten_nil,
    List.mem_append, List.mem_cons, List.not_mem_nil, or_false] at member <;> tauto

theorem Opener.step_exec (address : Nat → Int) (todo : o.todo = op :: more)
    (free : o.reuses w op = false)
    (exec : Opener.exec address w { o with todo := more } op = .ok raw (w', o')) :
    o.step address w = .ok raw (w', o') := by
  simp only [Opener.step, todo, free, Bool.false_eq_true, ↓reduceIte, exec, Traced.mapFault_ok]

theorem Opener.free_of_ne (other : op ≠ .rtdmTaskInit) : o.reuses w op = false := by
  rw [← Bool.not_eq_true, Opener.reuses_iff]
  exact fun both => other both.1

theorem Opener.free_of_null (held : w.taskTable[o.index]? = some .null) : o.reuses w op = false := by
  rw [← Bool.not_eq_true, Opener.reuses_iff]
  rintro ⟨-, k, thread⟩
  cases held.symm.trans thread

theorem Opener.UpToDate.name_eq {count : Nat} (seen : o.UpToDate count done) (read : .name ∈ done)
    (inside : count < maxPwmNum) : o.name = taskName[count] := by
  have known := seen.name read
  rw [Vector.getElem?_eq_getElem inside, Option.some.injEq] at known
  exact known.symm

theorem Opener.step_index (address : Nat → Int) (w : World) (todo : o.todo = .index :: more) :
    o.step address w = .ok [] (w, { o with index := w.pwmPinCount, todo := more }) :=
  Opener.step_exec address todo (Opener.free_of_ne (by decide)) rfl

/-- What an access of a request leaves as it is. -/
structure Opener.Done (o : Opener) (more : List InitOp) (o' : Opener) : Prop where
  todo : o'.todo = more
  args : o'.args = o.args
  outcome : o'.outcome = o.outcome
  err : o'.err = o.err

theorem Opener.Done.fresh (done : o.Done more o') (fresh : o.Fresh args outcome) :
    o'.Fresh args outcome :=
  ⟨done.args.trans fresh.1, done.outcome.trans fresh.2.1, done.err.trans fresh.2.2⟩

theorem Opener.step_done (todo : o.todo = op :: more)
    (exec : Opener.exec address w { o with todo := more } op = .ok raw (w', o'))
    (other : op ≠ .rtdmTaskInit) (hidden : Hidden raw) (done : o.Done more o') :
    ∃ raw o', o.step address w = .ok raw (w', o') ∧ Hidden raw ∧ o.Done more o' :=
  ⟨raw, o', Opener.step_exec address todo (Opener.free_of_ne other) exec, hidden, done⟩

/-- A reading access changes nothing but what the request knows. -/
theorem Opener.step_read (address : Nat → Int) (split : stmt.reads = done ++ op :: left)
    (todo : o.todo = op :: more) (seen : o.UpToDate w.pwmPinCount done)
    (inside : w.pwmPinCount < maxPwmNum) :
    ∃ raw o', o.step address w = .ok raw (w, o') ∧ Hidden raw ∧ o.Done more o' ∧
      o'.UpToDate w.pwmPinCount (done ++ [op]) := by
  have member : op ∈ stmt.reads := by simp [split]
  have reads := Stmt.mem_reads member
  have steps : ∀ {raw o'}, Opener.exec address w { o with todo := more } op = .ok raw (w, o') →
      o.step address w = .ok raw (w, o') :=
    Opener.step_exec address todo
      (Opener.free_of_ne (by rcases reads with rfl | rfl | rfl | rfl <;> decide))
  rcases reads with rfl | rfl | rfl | rfl
  · refine ⟨[], _, steps rfl, hidden_nil, ⟨rfl, rfl, rfl, rfl⟩, fun _ => rfl, ?_, ?_⟩
    · exact fun member => seen.position (by simpa using member)
    · exact fun member => seen.name (by simpa using member)
  · refine ⟨[], _, steps rfl, hidden_nil, ⟨rfl, rfl, rfl, rfl⟩, ?_, fun _ => rfl, ?_⟩
    · exact fun member => seen.index (by simpa using member)
    · exact fun member => seen.name (by simpa using member)
  · have index : o.index = w.pwmPinCount := by
      have read := Stmt.reads_split split
      exact seen.index (by simpa using read)
    have here : o.index < maxPwmNum := index ▸ inside
    refine ⟨_, _, steps (Opener.exec_name (o := { o with todo := more }) here), hidden_subscript,
      ⟨rfl, rfl, rfl, rfl⟩, fun _ => index, ?_, fun _ => ?_⟩
    · exact fun member => seen.position (by simpa using member)
    · rw [← index]
      exact Vector.getElem?_eq_getElem here
  · have index : o.index = w.pwmPinCount := by
      have read := Stmt.reads_split split
      exact seen.index (by simpa using read)
    have here : o.index < maxPwmNum := index ▸ inside
    refine ⟨_, _, steps (Opener.exec_printField (o := { o with todo := more }) here), hidden_subscript,
      ⟨rfl, rfl, rfl, rfl⟩, fun _ => index, ?_, ?_⟩
    · exact fun member => seen.position (by simpa using member)
    · exact fun member => seen.name (by simpa using member)

theorem Stmt.takes_effect (address : Nat → Int) (run : stmt.exec o.args o.outcome w = .ok tr (w', none))
    (inside : w.pwmPinCount < maxPwmNum) (todo : o.todo = stmt.effect :: more)
    (seen : o.UpToDate w.pwmPinCount stmt.reads)
    (free : stmt = .rtdmTaskInit → w.taskTable[w.pwmPinCount]? = some .null)
    (other : stmt ≠ .kthreadCreate) :
    Hidden tr ∧ ∃ raw o', o.step address w = .ok raw (w', o') ∧ Hidden raw ∧ o.Done more o' := by
  have index : o.index = w.pwmPinCount := seen.index (by cases stmt <;> simp [Stmt.reads])
  obtain ⟨args, outcome, _, position, name, task, err, all⟩ := o
  obtain rfl : _ = w.pwmPinCount := index
  obtain rfl : all = stmt.effect :: more := todo
  cases stmt with
  | kthreadCreate => exact absurd rfl other
  | setPin =>
      rw [Stmt.exec_setPin inside] at run
      cases run
      exact ⟨hidden_subscripts,
        Opener.step_done rfl (Opener.exec_setPin inside) (by simp [Stmt.effect]) hidden_subscripts
          ⟨rfl, rfl, rfl, rfl⟩⟩
  | setMin =>
      rw [Stmt.exec_setMin inside] at run
      cases run
      exact ⟨hidden_subscripts,
        Opener.step_done rfl (Opener.exec_setMin inside) (by simp [Stmt.effect]) hidden_subscripts
          ⟨rfl, rfl, rfl, rfl⟩⟩
  | setMax =>
      rw [Stmt.exec_setMax inside] at run
      cases run
      exact ⟨hidden_subscripts,
        Opener.step_done rfl (Opener.exec_setMax inside) (by simp [Stmt.effect]) hidden_subscripts
          ⟨rfl, rfl, rfl, rfl⟩⟩
  | setDuty =>
      rw [Stmt.exec_setDuty inside] at run
      cases run
      exact ⟨hidden_subscripts,
        Opener.step_done rfl (Opener.exec_setDuty inside) (by simp [Stmt.effect]) hidden_subscripts
          ⟨rfl, rfl, rfl, rfl⟩⟩
  | printk =>
      rw [Stmt.exec_printk inside] at run
      cases run
      exact ⟨hidden_subscript,
        Opener.step_done rfl (Opener.exec_printField inside) (by simp [Stmt.effect]) hidden_subscript
          ⟨rfl, rfl, rfl, rfl⟩⟩
  | rtdmPrintk =>
      rw [Stmt.exec_rtdmPrintk inside] at run
      cases run
      exact ⟨hidden_subscripts,
        Opener.step_done rfl (Opener.exec_name inside) (by simp [Stmt.effect]) hidden_subscript
          ⟨rfl, rfl, rfl, rfl⟩⟩
  | isErr =>
      by_cases failed : ∃ why, w.taskTable[w.pwmPinCount] = .error why
      · obtain ⟨why, failed⟩ := failed
        rw [Stmt.exec_isErr_error inside failed] at run
        cases run
      · have valid : ∀ why, w.taskTable[w.pwmPinCount] ≠ .error why :=
          fun why same => failed ⟨why, same⟩
        rw [Stmt.exec_isErr_valid inside valid] at run
        cases run
        exact ⟨hidden_subscript,
          Opener.step_done rfl (Opener.exec_isErr_valid inside valid) (by simp [Stmt.effect])
            hidden_subscript ⟨rfl, rfl, rfl, rfl⟩⟩
  | wakeUp =>
      by_cases thread : ∃ k, w.taskTable[w.pwmPinCount] = .thread k
      · obtain ⟨k, thread⟩ := thread
        rw [Stmt.exec_wakeUp inside thread] at run
        cases run
        exact ⟨hidden_subscript,
          Opener.step_done rfl (Opener.exec_wakeUp inside thread) (by simp [Stmt.effect])
            hidden_subscript ⟨rfl, rfl, rfl, rfl⟩⟩
      · have wrong : Stmt.wakeUp.exec args outcome w =
            .fault [.subscript .taskTable w.pwmPinCount] (.notAThread w.taskTable[w.pwmPinCount]) := by
          cases held : w.taskTable[w.pwmPinCount] with
          | thread k => exact absurd ⟨k, held⟩ thread
          | null | error => simp [Stmt.exec, subscript_eq inside, held]
        cases wrong.symm.trans run
  | rtdmTaskInit =>
      cases outcome with
      | failed why =>
          rw [Stmt.exec_rtdmTaskInit_failed inside] at run
          cases run
      | created =>
          rw [Stmt.exec_rtdmTaskInit_created inside] at run
          cases run
          obtain rfl : position = w.pwmPinCount := seen.position (by simp [Stmt.reads])
          obtain rfl : name = taskName[w.pwmPinCount] := seen.name_eq (by simp [Stmt.reads]) inside
          exact ⟨hidden_subscripts, _, _,
            Opener.step_exec address rfl (Opener.free_of_null (free rfl))
              (Opener.exec_rtdmTaskInit_created inside rfl),
            hidden_subscript, rfl, rfl, rfl, rfl⟩
  | incr =>
      cases run
      exact ⟨hidden_nil,
        Opener.step_done rfl rfl (by simp [Stmt.effect]) hidden_nil ⟨rfl, rfl, rfl, rfl⟩⟩

/-- Only a failed creation breaks out of the branch. -/
theorem Stmt.exec_breaks {err : Int} (run : stmt.exec args outcome w = .ok tr (w', some err))
    (inside : w.pwmPinCount < maxPwmNum) :
    stmt = .isErr ∧ (∃ why, w.taskTable[w.pwmPinCount] = .error why) ∨
      stmt = .rtdmTaskInit ∧ ∃ why, outcome = .failed why := by
  cases stmt with
  | setPin => rw [Stmt.exec_setPin inside] at run; cases run
  | setMin => rw [Stmt.exec_setMin inside] at run; cases run
  | setMax => rw [Stmt.exec_setMax inside] at run; cases run
  | setDuty => rw [Stmt.exec_setDuty inside] at run; cases run
  | printk => rw [Stmt.exec_printk inside] at run; cases run
  | rtdmPrintk => rw [Stmt.exec_rtdmPrintk inside] at run; cases run
  | incr => cases run
  | kthreadCreate =>
      cases outcome with
      | created => rw [Stmt.exec_kthreadCreate_created inside] at run; cases run
      | failed why => rw [Stmt.exec_kthreadCreate_failed inside] at run; cases run
  | wakeUp =>
      cases held : w.taskTable[w.pwmPinCount] with
      | thread k => rw [Stmt.exec_wakeUp inside held] at run; cases run
      | null | error => simp [Stmt.exec, subscript_eq inside, held] at run
  | isErr =>
      by_cases failed : ∃ why, w.taskTable[w.pwmPinCount] = .error why
      · exact .inl ⟨rfl, failed⟩
      · rw [Stmt.exec_isErr_valid inside fun why same => failed ⟨why, same⟩] at run
        cases run
  | rtdmTaskInit =>
      cases outcome with
      | created => rw [Stmt.exec_rtdmTaskInit_created inside] at run; cases run
      | failed why => exact .inr ⟨rfl, why, rfl⟩

theorem failedOps_split (split : failedOps = done ++ op :: more) :
    op = .index ∧ more ≠ [] ∨ op = .ptrErr ∧ more ≠ [] ∧ .index ∈ done ∨
      op = .storeNull ∧ more = [] ∧ .index ∈ done ∧ .ptrErr ∈ done := by
  have all : ∀ done ∈ failedOps.inits,
      (failedOps.drop done.length).head? = some .index ∧ (failedOps.drop done.length).tail ≠ [] ∨
      (failedOps.drop done.length).head? = some .ptrErr ∧
        (failedOps.drop done.length).tail ≠ [] ∧ .index ∈ done ∨
      (failedOps.drop done.length).head? = some .storeNull ∧
        (failedOps.drop done.length).tail = [] ∧ .index ∈ done ∧ .ptrErr ∈ done ∨
      failedOps.drop done.length = [] := by
    decide
  have rest : failedOps.drop done.length = op :: more := by
    rw [split, List.drop_left]
  simpa [rest] using all done ((List.mem_inits _ _).mpr ⟨op :: more, split.symm⟩)

end KsoftPWM

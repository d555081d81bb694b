import Mathlib.Data.List.Basic
import Mathlib.Order.Basic

/-!
# Bebop — the execution budget of decorators

`bebop__lua_budget_hook` of `bebop_macro.c`, and the calls of Lua code that are made with
it. The code is any program. What the machine does with hooks, errors and protected calls
is that of `ldo.c` and `ldebug.c`: a hook is not called while another one runs, and so not
in a message handler that runs for its error, nor in a finalizer. The hook raises an
ordinary error, which a program may catch each time (`budget_escaped`).
-/

namespace Bebop.Compiler

/-- `BEBOP_LUA_HOOK_INTERVAL` -/
def hookInterval : Nat := 100000

theorem one_lt_hookInterval : 1 < hookInterval := by decide

theorem hookInterval_pos : 0 < hookInterval := Nat.zero_lt_of_lt one_lt_hookInterval

/-- `BEBOP_LUA_INSTR_BUDGET` -/
def instrBudget : Int := 50000000

/-- `LUAI_MAXCCALLS`: another protected call is an error. -/
def maxCCalls : Nat := 200

/-- `LUAI_MAXCCALLS / 10 * 11`: another message handler is not called. -/
def maxErrorCalls : Nat := 220

/-! ## Programs -/

inductive LuaAction
  | go
  -- it calls `pcall`, or `xpcall` with a message handler
  | protect (handled : Bool)
  -- the collector calls a finalizer
  | finalize
  -- a protected function, a message handler or a finalizer returns, or else the whole
  | leave
  | raise
  deriving DecidableEq, Repr

/-- Lua code, with all that its run depends on in its states. -/
structure LuaCode (σ : Type) where
  -- the next instruction, and the state behind it
  next : σ → LuaAction × σ
  -- where a protected call fails with the error of a state
  caught : σ → σ
  -- where the message handler begins
  handle : σ → σ

inductive LuaFrame
  -- a protected call, with a message handler or without
  | call (handled : Bool)
  -- the handler of the protected call below it
  | handler
  | finalizer
  deriving DecidableEq, Repr

/-- A frame and the `allowhook` that is restored behind it. -/
abbrev SavedFrame := LuaFrame × Bool

structure LuaVm (σ : Type) where
  state : σ
  frames : List SavedFrame
  -- `L->allowhook`
  allowHook : Bool
  -- `L->hookcount`
  hookCount : Nat
  -- `instr_remaining`
  remaining : Int

/-- `LUA_OK`, or not. -/
inductive LuaReturn
  | ok
  | failed
  deriving DecidableEq, Repr

section

variable {σ : Type} (code : LuaCode σ)

/-- `L->errfunc` is set. -/
def hasHandler : List SavedFrame → Bool
  | (.handler, _) :: frames => hasHandler frames
  | (.call handled, _) :: _ => handled
  | _ => false

/-- `luaD_throw`: the innermost protected call fails, or else the whole call. -/
def unwind (vm : LuaVm σ) : List SavedFrame → Except LuaReturn (LuaVm σ)
  | [] => .error .failed
  | (.handler, _) :: frames => unwind vm frames
  | (.call _, allow) :: frames =>
    .ok { vm with state := code.caught vm.state, frames := frames, allowHook := allow }
  | (.finalizer, allow) :: frames =>
    .ok { vm with state := code.caught vm.state, frames := frames, allowHook := allow }

/-- `luaG_errormsg` -/
def errorMsg (vm : LuaVm σ) : Except LuaReturn (LuaVm σ) :=
  if hasHandler vm.frames ∧ vm.frames.length < maxErrorCalls then
    .ok { vm with state := code.handle vm.state, frames := (.handler, vm.allowHook) :: vm.frames }
  else unwind code vm vm.frames

def execute (vm : LuaVm σ) : Except LuaReturn (LuaVm σ) :=
  match code.next vm.state with
  | (.go, state) => .ok { vm with state := state }
  | (.protect handled, state) =>
    if vm.frames.length < maxCCalls then
      .ok { vm with state := state, frames := (.call handled, vm.allowHook) :: vm.frames }
    else errorMsg code { vm with state := state }
  | (.finalize, state) =>
    -- where there is no room for it, it is called later
    if vm.frames.length < maxCCalls then
      .ok { vm with state := state, frames := (.finalizer, vm.allowHook) :: vm.frames, allowHook := false }
    else .ok { vm with state := state }
  | (.leave, state) =>
    match vm.frames with
    | [] => .error .ok
    | (.handler, _) :: frames => unwind code { vm with state := state } frames
    | (_, allow) :: frames => .ok { vm with state := state, frames := frames, allowHook := allow }
  | (.raise, state) => errorMsg code { vm with state := state }

/-- `bebop__lua_budget_hook`, with its context: an error while `allowhook` is off. -/
def budgetHook (vm : LuaVm σ) : LuaVm σ × Bool :=
  if vm.remaining - hookInterval ≤ 0 then
    ({ vm with remaining := vm.remaining - hookInterval, allowHook := false }, true)
  else ({ vm with remaining := vm.remaining - hookInterval }, false)

/-- What `luaG_traceexec` does before the instruction, and the instruction. -/
def vmStep (vm : LuaVm σ) : Except LuaReturn (LuaVm σ) :=
  if vm.hookCount ≤ 1 then
    let vm := { vm with hookCount := hookInterval }
    if vm.allowHook then
      match budgetHook vm with
      | (vm, true) => errorMsg code vm
      | (vm, false) => execute code vm
    else execute code vm
  else execute code { vm with hookCount := vm.hookCount - 1 }

def vmSteps : Nat → LuaVm σ → Except LuaReturn (LuaVm σ)
  | 0, vm => .ok vm
  | n + 1, vm =>
    match vmStep code vm with
    | .error status => .error status
    | .ok vm => vmSteps n vm

end

/-! ## Calls -/

structure LuaInterp where
  hookCount : Nat
  remaining : Int
  -- the hook counts from the interval down
  hookCount_pos : 0 < hookCount
  hookCount_le : hookCount ≤ hookInterval

/-- `bebop__lua_budget_reset` -/
def LuaInterp.budgetReset (interp : LuaInterp) : LuaInterp := { interp with remaining := instrBudget }

/-- `lua_pcall`, before the first instruction of the function. -/
def LuaInterp.pcall {σ : Type} (interp : LuaInterp) (entry : σ) : LuaVm σ :=
  ⟨entry, [], true, interp.hookCount, interp.remaining⟩

/-- The budget is reset, and the function is called. -/
def LuaInterp.decoratorCall {σ : Type} (interp : LuaInterp) (entry : σ) : LuaVm σ := interp.budgetReset.pcall entry

/-! ## The budget -/

section

variable {σ : Type} {code : LuaCode σ} {vm vm' : LuaVm σ}

/-- No code runs with hooks off; and when the budget is used up, no protected call is made and
no message handler is there. -/
structure Bounded (code : LuaCode σ) (vm : LuaVm σ) : Prop where
  allowHook : vm.allowHook = true
  finalize : (code.next vm.state).1 ≠ .finalize
  protect : vm.remaining ≤ 0 → ∀ handled, (code.next vm.state).1 ≠ .protect handled
  handler : vm.remaining ≤ 0 → hasHandler vm.frames = false

/-- The hooks that can still be called behind the next one. -/
def laterHooks (vm : LuaVm σ) : Nat :=
  if 0 < vm.remaining then ((vm.remaining - 1) / hookInterval).toNat + (maxErrorCalls + 1) else vm.frames.length

def instructionsLeft (vm : LuaVm σ) : Nat := vm.hookCount + hookInterval * laterHooks vm

/-- The counter and the stack are within their bounds. -/
structure VmOk (vm : LuaVm σ) : Prop where
  pos : 0 < vm.hookCount
  le : vm.hookCount ≤ hookInterval
  frames : vm.frames.length ≤ maxErrorCalls

/-- What an instruction or an error leaves as it is, and how far it may grow the stack. -/
structure Grows (vm vm' : LuaVm σ) (room : Nat) : Prop where
  hookCount : vm'.hookCount = vm.hookCount
  remaining : vm'.remaining = vm.remaining
  frames : vm'.frames.length ≤ room

theorem unwind_grows {frames : List SavedFrame} (h : unwind code vm frames = .ok vm') :
    Grows vm vm' (frames.length - 1) := by
  induction frames with
  | nil => cases h
  | cons frame frames ih =>
    obtain ⟨kind, allow⟩ := frame
    rw [List.length_cons, Nat.add_sub_cancel]
    cases kind with
    | handler =>
      have hrest := ih h
      exact ⟨hrest.hookCount, hrest.remaining, Nat.le_trans hrest.frames (Nat.sub_le ..)⟩
    | call handled =>
      cases h
      exact ⟨rfl, rfl, Nat.le_refl _⟩
    | finalizer =>
      cases h
      exact ⟨rfl, rfl, Nat.le_refl _⟩

theorem Grows.mono {room room' : Nat} (h : Grows vm vm' room) (hroom : room ≤ room') : Grows vm vm' room' :=
  ⟨h.hookCount, h.remaining, Nat.le_trans h.frames hroom⟩

theorem errorMsg_grows (hframes : vm.frames.length ≤ maxErrorCalls) (h : errorMsg code vm = .ok vm') :
    Grows vm vm' maxErrorCalls := by
  unfold errorMsg at h
  split at h
  · rename_i hroom
    cases h
    exact ⟨rfl, rfl, hroom.2⟩
  · exact (unwind_grows h).mono (Nat.le_trans (Nat.sub_le ..) hframes)

theorem errorMsg_closes (hhandler : hasHandler vm.frames = false) (h : errorMsg code vm = .ok vm') :
    Grows vm vm' (vm.frames.length - 1) := by
  unfold errorMsg at h
  rw [if_neg (by rw [hhandler]; rintro ⟨hfalse, -⟩; cases hfalse)] at h
  exact unwind_grows h

theorem execute_grows (hframes : vm.frames.length ≤ maxErrorCalls) (h : execute code vm = .ok vm') :
    Grows vm vm' maxErrorCalls := by
  have hmax : maxCCalls < maxErrorCalls := by decide
  unfold execute at h
  split at h
  · cases h
    exact ⟨rfl, rfl, hframes⟩
  · split at h
    · rename_i hroom
      cases h
      exact ⟨rfl, rfl, Nat.le_trans hroom (Nat.le_of_lt hmax)⟩
    · have hgrows := errorMsg_grows (by exact hframes) h
      exact ⟨hgrows.hookCount, hgrows.remaining, hgrows.frames⟩
  · split at h
    · rename_i hroom
      cases h
      exact ⟨rfl, rfl, Nat.le_trans hroom (Nat.le_of_lt hmax)⟩
    · cases h
      exact ⟨rfl, rfl, hframes⟩
  · split at h
    · cases h
    · rename_i frames hstack
      have hgrows := unwind_grows h
      rw [hstack] at hframes
      exact ⟨hgrows.hookCount, hgrows.remaining,
        Nat.le_trans hgrows.frames (Nat.le_trans (Nat.sub_le ..) (Nat.le_trans (Nat.le_succ _) hframes))⟩
    · rename_i frames _ hstack
      cases h
      rw [hstack] at hframes
      exact ⟨rfl, rfl, Nat.le_trans (Nat.le_succ _) hframes⟩
  · have hgrows := errorMsg_grows (by exact hframes) h
    exact ⟨hgrows.hookCount, hgrows.remaining, hgrows.frames⟩

theorem execute_shrinks (hfinalize : (code.next vm.state).1 ≠ .finalize)
    (hprotect : ∀ handled, (code.next vm.state).1 ≠ .protect handled) (hhandler : hasHandler vm.frames = false)
    (h : execute code vm = .ok vm') : Grows vm vm' vm.frames.length := by
  unfold execute at h
  split at h
  · cases h
    exact ⟨rfl, rfl, Nat.le_refl _⟩
  · rename_i handled state hnext
    exact absurd (congrArg Prod.fst hnext) (hprotect handled)
  · rename_i state hnext
    exact absurd (congrArg Prod.fst hnext) hfinalize
  · split at h
    · cases h
    · rename_i frames hstack
      have hgrows := unwind_grows h
      rw [hstack, List.length_cons]
      exact ⟨hgrows.hookCount, hgrows.remaining, Nat.le_trans hgrows.frames (by omega)⟩
    · rename_i frames _ hstack
      cases h
      rw [hstack, List.length_cons]
      exact ⟨rfl, rfl, Nat.le_succ _⟩
  · have hgrows := errorMsg_closes (by exact hhandler) h
    exact ⟨hgrows.hookCount, hgrows.remaining, Nat.le_trans hgrows.frames (Nat.sub_le ..)⟩

/-! ## A step -/

theorem laterHooks_of_pos (vm : LuaVm σ) (h : 0 < vm.remaining) :
    laterHooks vm = ((vm.remaining - 1) / hookInterval).toNat + (maxErrorCalls + 1) := if_pos h

theorem laterHooks_of_nonpos (vm : LuaVm σ) (h : vm.remaining ≤ 0) :
    laterHooks vm = vm.frames.length := if_neg (Int.not_lt.mpr h)

theorem laterHooks_execute (hok : VmOk vm) (hbounded : Bounded code vm) (h : execute code vm = .ok vm') :
    laterHooks vm' ≤ laterHooks vm := by
  have hgrows := execute_grows hok.frames h
  by_cases hpos : 0 < vm.remaining
  · have hsame : laterHooks vm' = laterHooks vm := by
      rw [laterHooks_of_pos vm hpos, laterHooks_of_pos vm' (by rw [hgrows.remaining]; exact hpos), hgrows.remaining]
    exact Nat.le_of_eq hsame
  · have hzero := Int.not_lt.mp hpos
    rw [laterHooks_of_nonpos vm hzero, laterHooks_of_nonpos vm' (by rw [hgrows.remaining]; exact hzero)]
    exact (execute_shrinks hbounded.finalize (hbounded.protect hzero) (hbounded.handler hzero) h).frames

theorem laterHooks_budget (hpos : 0 < vm.remaining - hookInterval) (vm' : LuaVm σ)
    (hremaining : vm'.remaining = vm.remaining - hookInterval) : laterHooks vm' + 1 = laterHooks vm := by
  have hinterval : (0 : Int) < hookInterval := by decide
  have hdiv : (vm.remaining - 1) / hookInterval = (vm.remaining - hookInterval - 1) / hookInterval + 1 := by
    rw [← Int.add_mul_ediv_right _ _ (Int.ne_of_gt hinterval)]
    congr 1
    omega
  have hnonneg : 0 ≤ (vm.remaining - hookInterval - 1) / hookInterval := Int.ediv_nonneg (by omega) (Int.le_of_lt hinterval)
  rw [laterHooks_of_pos vm (by omega), laterHooks_of_pos vm' (by rw [hremaining]; exact hpos), hremaining, hdiv]
  omega

theorem laterHooks_error (hzero : vm.remaining - hookInterval ≤ 0) (hframes : vm'.frames.length ≤ maxErrorCalls)
    (hcloses : vm.remaining ≤ 0 → vm'.frames.length < vm.frames.length)
    (hremaining : vm'.remaining = vm.remaining - hookInterval) : laterHooks vm' < laterHooks vm := by
  rw [laterHooks_of_nonpos vm' (by rw [hremaining]; exact hzero)]
  by_cases hpos : 0 < vm.remaining
  · rw [laterHooks_of_pos vm hpos]
    omega
  · rw [laterHooks_of_nonpos vm (Int.not_lt.mp hpos)]
    exact hcloses (Int.not_lt.mp hpos)

theorem frames_pos_of_unwind {frames : List SavedFrame} (h : unwind code vm frames = .ok vm') : 0 < frames.length := by
  cases frames with
  | nil => cases h
  | cons frame frames => exact Nat.succ_pos _

theorem errorMsg_open (hhandler : hasHandler vm.frames = false) (h : errorMsg code vm = .ok vm') :
    vm'.frames.length < vm.frames.length := by
  have hcloses := errorMsg_closes hhandler h
  unfold errorMsg at h
  rw [if_neg (by rw [hhandler]; rintro ⟨hfalse, -⟩; cases hfalse)] at h
  have hopen := frames_pos_of_unwind h
  have hle := hcloses.frames
  omega

theorem vmStep_between (hcount : ¬vm.hookCount ≤ 1) :
    vmStep code vm = execute code { vm with hookCount := vm.hookCount - 1 } := if_neg hcount

theorem vmStep_hook (hcount : vm.hookCount ≤ 1) (hallow : vm.allowHook = true)
    (hleft : ¬vm.remaining - hookInterval ≤ 0) : vmStep code vm =
      execute code { vm with hookCount := hookInterval, remaining := vm.remaining - hookInterval } := by
  unfold vmStep budgetHook
  dsimp only
  rw [if_pos hcount, if_pos hallow, if_neg hleft]

theorem vmStep_spent (hcount : vm.hookCount ≤ 1) (hallow : vm.allowHook = true)
    (hspent : vm.remaining - hookInterval ≤ 0) : vmStep code vm =
      errorMsg code { vm with
        hookCount := hookInterval
        remaining := vm.remaining - hookInterval
        allowHook := false } := by
  unfold vmStep budgetHook
  dsimp only
  rw [if_pos hcount, if_pos hallow, if_pos hspent]

theorem instructionsLeft_hook (hpos : 0 < vm.hookCount) (hcount : vm'.hookCount = hookInterval)
    (hlater : laterHooks vm' < laterHooks vm) : instructionsLeft vm' < instructionsLeft vm := by
  have hmul := Nat.mul_le_mul_left hookInterval hlater
  rw [Nat.mul_succ] at hmul
  unfold instructionsLeft
  omega

theorem vmStep_decreases (hok : VmOk vm) (hbounded : Bounded code vm) (h : vmStep code vm = .ok vm') :
    VmOk vm' ∧ instructionsLeft vm' < instructionsLeft vm := by
  obtain ⟨hpos, hle, hframes⟩ := hok
  have hback (hcount : vm'.hookCount = hookInterval) (hroom : vm'.frames.length ≤ maxErrorCalls) : VmOk vm' := by
    refine ⟨?_, Nat.le_of_eq hcount, hroom⟩
    rw [hcount]
    exact hookInterval_pos
  by_cases hcount : vm.hookCount ≤ 1
  · by_cases hspent : vm.remaining - hookInterval ≤ 0
    · rw [vmStep_spent hcount hbounded.allowHook hspent] at h
      have hgrows := errorMsg_grows (by exact hframes) h
      refine ⟨hback hgrows.hookCount hgrows.frames, instructionsLeft_hook hpos hgrows.hookCount ?_⟩
      refine laterHooks_error hspent hgrows.frames (fun hempty => ?_) hgrows.remaining
      have hopen := errorMsg_open (by exact hbounded.handler hempty) h
      exact hopen
    · rw [vmStep_hook hcount hbounded.allowHook hspent] at h
      have hgrows := execute_grows (by exact hframes) h
      have hlater := laterHooks_budget (Int.not_le.mp hspent) vm' hgrows.remaining
      exact ⟨hback hgrows.hookCount hgrows.frames, instructionsLeft_hook hpos hgrows.hookCount (by omega)⟩
  · rw [vmStep_between hcount] at h
    have hgrows := execute_grows (by exact hframes) h
    have hcount' : vm'.hookCount = vm.hookCount - 1 := hgrows.hookCount
    have hlater : laterHooks vm' ≤ laterHooks { vm with hookCount := vm.hookCount - 1 } := by
      refine laterHooks_execute ⟨?_, ?_, hframes⟩ ?_ h
      · show 0 < vm.hookCount - 1
        omega
      · show vm.hookCount - 1 ≤ hookInterval
        omega
      · exact ⟨hbounded.allowHook, hbounded.finalize, hbounded.protect, hbounded.handler⟩
    change laterHooks vm' ≤ laterHooks vm at hlater
    have hmul := Nat.mul_le_mul_left hookInterval hlater
    unfold instructionsLeft
    exact ⟨⟨by omega, by omega, hgrows.frames⟩, by omega⟩

/-! ## Calls -/

theorem vmSteps_returns (hok : VmOk vm) (hbounded : ∀ n vm', vmSteps code n vm = .ok vm' → Bounded code vm')
    {fuel : Nat} (hfuel : instructionsLeft vm ≤ fuel) : ∃ status, vmSteps code fuel vm = .error status := by
  induction fuel generalizing vm with
  | zero =>
    have hpos := hok.pos
    unfold instructionsLeft at hfuel
    omega
  | succ fuel ih =>
    unfold vmSteps
    cases hstep : vmStep code vm with
    | error status => exact ⟨status, rfl⟩
    | ok vm' =>
      obtain ⟨hok', hless⟩ := vmStep_decreases hok (hbounded 0 vm rfl) hstep
      refine ih hok' (fun n vm'' hrun => hbounded (n + 1) vm'' ?_) (by omega)
      unfold vmSteps
      rw [hstep]
      exact hrun

theorem vmOk_decoratorCall (interp : LuaInterp) (entry : σ) : VmOk (interp.decoratorCall entry) :=
  ⟨interp.hookCount_pos, interp.hookCount_le, Nat.zero_le _⟩

theorem instructionsLeft_decoratorCall (interp : LuaInterp) (entry : σ) :
    instructionsLeft (interp.decoratorCall entry) ≤ instrBudget.toNat + (maxErrorCalls + 1) * hookInterval := by
  have hle := interp.hookCount_le
  have hlater : laterHooks (interp.decoratorCall entry) = 499 + (maxErrorCalls + 1) := rfl
  unfold instructionsLeft
  rw [hlater]
  change interp.hookCount + _ ≤ _
  have hbudget : instrBudget.toNat = 500 * hookInterval := rfl
  rw [hbudget, Nat.mul_comm hookInterval, Nat.add_mul, ← Nat.add_assoc]
  exact Nat.add_le_add_right (by omega) _

end

def returningCode : LuaCode Unit := ⟨fun s => (.leave, s), id, id⟩

/-- `while true do pcall(function() while true do end end) end`; the state says whether the
outer loop runs. -/
def escapingCode : LuaCode Bool where
  next outer := if outer then (.protect false, false) else (.go, false)
  caught _ := true
  handle := id

/-- In the outer loop no hook is due, and the inner one is in the protected call. -/
def Escaping (vm : LuaVm Bool) : Prop :=
  vm.allowHook = true ∧ 0 < vm.hookCount ∧
    match vm.state with
    | true => vm.frames = [] ∧ 1 < vm.hookCount
    | false => vm.frames = [(.call false, true)]

theorem Escaping.vmStep {vm : LuaVm Bool} (h : Escaping vm) :
    ∃ vm', vmStep escapingCode vm = .ok vm' ∧ Escaping vm' := by
  obtain ⟨state, frames, allowHook, hookCount, remaining⟩ := vm
  obtain ⟨hallow, hpos, hstate⟩ := h
  dsimp only at hallow hpos hstate
  subst hallow
  cases state with
  | true =>
    obtain ⟨rfl, hdue⟩ := hstate
    refine ⟨_, vmStep_between (Nat.not_le.mpr hdue), rfl, ?_, rfl⟩
    show 0 < hookCount - 1
    omega
  | false =>
    subst hstate
    by_cases hcount : hookCount ≤ 1
    · by_cases hspent : remaining - hookInterval ≤ 0
      · -- the error of the hook is caught, and the hook counts from the interval again
        exact ⟨_, vmStep_spent hcount rfl hspent, rfl, hookInterval_pos, rfl, one_lt_hookInterval⟩
      · exact ⟨_, vmStep_hook hcount rfl hspent, rfl, hookInterval_pos, rfl⟩
    · refine ⟨_, vmStep_between hcount, rfl, ?_, rfl⟩
      show 0 < hookCount - 1
      omega

theorem Escaping.vmSteps {vm : LuaVm Bool} (h : Escaping vm) (n : Nat) :
    ∃ vm', vmSteps escapingCode n vm = .ok vm' := by
  induction n generalizing vm with
  | zero => exact ⟨vm, rfl⟩
  | succ n ih =>
    obtain ⟨vm', hstep, hescaping⟩ := h.vmStep
    unfold Compiler.vmSteps
    rw [hstep]
    exact ih hescaping

end Bebop.Compiler

import Mathlib.Tactic.Common

/-!
# HAL — `UnsafeManipulateDIO`

`UnsafeManipulateDIO` looks a digital handle up, computes the channel's mask,
reads the output-enable and output registers under the DIO mutex, and hands
`func` a `DIOSetProxy` holding, for each register, the image with the mask's
bits set and the image with them cleared. The handle table,
`ComputeDigitalMask`, `HAL_HANDLE_ERROR` and the FPGA registers are not among
the sources: they are `DIOServices` and `DIORegisters`.

Whatever calls `func` makes on the proxy, it changes only the channel's bits,
each to what the last call of its kind set (`dioSetProxy_calls`). But the check after
`ComputeDigitalMask` compares the pointer `status` with `0`, not `*status`, so
through any real status pointer `func` is never called
(`unsafeManipulateDIO_skips_func`).
-/

namespace Wpilib.Hal

/-- `HAL_DigitalHandle`, an `int32_t`. -/
abbrev DigitalHandle := BitVec 32

/-- An `int32_t` status code; `0` is success. -/
abbrev StatusCode := BitVec 32

/-- `int32_t *status`: the address of the caller's status variable (`0` for
`nullptr`) and the value stored there. -/
structure StatusPtr where
  addr : Nat
  value : StatusCode
  deriving DecidableEq, Repr

/-- The `tDIO` registers as `readOutputEnable` and `readDO` return them. -/
structure DIORegisters where
  /-- `tDIO::tOutputEnable`. -/
  outputEnable : BitVec 32
  /-- `tDIO::tDO`. -/
  digitalOutput : BitVec 32
  deriving DecidableEq, Repr

/-- The HAL services `UnsafeManipulateDIO` calls. -/
structure DIOServices where
  /-- `digitalChannelHandles->Get(handle, HAL_HandleEnum::DIO)` is not `nullptr`. -/
  isDIOPort : DigitalHandle → Bool
  /-- `detail::ComputeDigitalMask`: the mask, and what it leaves in `*status`. -/
  computeDigitalMask : DigitalHandle → StatusCode → BitVec 32 × StatusCode
  /-- `HAL_HANDLE_ERROR`. -/
  handleError : StatusCode

/-- `DIOSetProxy`: the four register images `func` may write. -/
structure DIOSetProxy where
  setOutputDirReg : BitVec 32
  unsetOutputDirReg : BitVec 32
  setOutputStateReg : BitVec 32
  unsetOutputStateReg : BitVec 32
  deriving DecidableEq, Repr

/-- A call `func` makes on the proxy. -/
inductive ProxyCall where
  | setOutputMode
  | setInputMode
  | setOutputTrue
  | setOutputFalse
  deriving DecidableEq, Repr

/-- The direction a call sets, output as `true`; `none` for a level call. -/
def ProxyCall.direction : ProxyCall → Option Bool
  | .setOutputMode => some true
  | .setInputMode => some false
  | _ => none

/-- The level a call sets; `none` for a direction call. -/
def ProxyCall.level : ProxyCall → Option Bool
  | .setOutputTrue => some true
  | .setOutputFalse => some false
  | _ => none

namespace DIOSetProxy

variable (p : DIOSetProxy) (r : DIORegisters)

/-- `SetOutputMode`. -/
def setOutputMode : DIORegisters := { r with outputEnable := p.setOutputDirReg }

/-- `SetInputMode`. -/
def setInputMode : DIORegisters := { r with outputEnable := p.unsetOutputDirReg }

/-- `SetOutputTrue`. -/
def setOutputTrue : DIORegisters := { r with digitalOutput := p.setOutputStateReg }

/-- `SetOutputFalse`. -/
def setOutputFalse : DIORegisters := { r with digitalOutput := p.unsetOutputStateReg }

/-- The register write of one proxy call. -/
def call : ProxyCall → DIORegisters
  | .setOutputMode => p.setOutputMode r
  | .setInputMode => p.setInputMode r
  | .setOutputTrue => p.setOutputTrue r
  | .setOutputFalse => p.setOutputFalse r

/-- The registers after `func`'s calls on the proxy, in order: `func` holds
the DIO mutex throughout, so nothing else writes them meanwhile. -/
def calls (cs : List ProxyCall) : DIORegisters := cs.foldl p.call r

/-- The output-enable image a direction selects. -/
def dirImage (b : Bool) : BitVec 32 := if b then p.setOutputDirReg else p.unsetOutputDirReg

/-- The output image a level selects. -/
def levelImage (b : Bool) : BitVec 32 := if b then p.setOutputStateReg else p.unsetOutputStateReg

/-- The output-enable register ends as the image of the last direction call. -/
theorem calls_outputEnable : ∀ (cs : List ProxyCall) (r : DIORegisters),
    (p.calls r cs).outputEnable =
      ((cs.filterMap ProxyCall.direction).getLast?.map p.dirImage).getD r.outputEnable
  | [], _ => rfl
  | c :: cs, r => by
    rw [calls, List.foldl_cons, ← calls, calls_outputEnable cs]
    cases c <;> cases hl : (cs.filterMap ProxyCall.direction).getLast? <;>
      simp [call, setOutputMode, setInputMode, setOutputTrue, setOutputFalse, ProxyCall.direction,
        dirImage, hl, List.getLast?_cons]

/-- The output register ends as the image of the last level call. -/
theorem calls_digitalOutput : ∀ (cs : List ProxyCall) (r : DIORegisters),
    (p.calls r cs).digitalOutput =
      ((cs.filterMap ProxyCall.level).getLast?.map p.levelImage).getD r.digitalOutput
  | [], _ => rfl
  | c :: cs, r => by
    rw [calls, List.foldl_cons, ← calls, calls_digitalOutput cs]
    cases c <;> cases hl : (cs.filterMap ProxyCall.level).getLast? <;>
      simp [call, setOutputMode, setInputMode, setOutputTrue, setOutputFalse, ProxyCall.level,
        levelImage, hl, List.getLast?_cons]

end DIOSetProxy

/-- The images `UnsafeManipulateDIO` builds from the registers as read. -/
def dioSetProxy (r : DIORegisters) (mask : BitVec 32) : DIOSetProxy :=
  let enableOE := r.outputEnable ||| mask
  let disableOE := enableOE &&& ~~~mask
  let enableDO := r.digitalOutput ||| mask
  let disableDO := enableDO &&& ~~~mask
  ⟨enableOE, disableOE, enableDO, disableDO⟩

/-- Bit `i` of the set or the unset image of `x`: the choice on the mask's
bits, `x` elsewhere. -/
theorem image_getLsbD (x mask : BitVec 32) (b : Bool) (i : Fin 32) :
    (if b then x ||| mask else (x ||| mask) &&& ~~~mask).getLsbD i =
      if mask.getLsbD i then b else x.getLsbD i := by
  cases b <;> cases hm : mask.getLsbD i <;> simp [hm, i.isLt]

/-- How `UnsafeManipulateDIO` ends: it returns early, or calls `func` once with
the proxy. -/
inductive DIOCall where
  | returned (status : StatusPtr)
  | invoked (proxy : DIOSetProxy) (status : StatusPtr)
  deriving DecidableEq, Repr

/-- `hal::UnsafeManipulateDIO`. The check after `ComputeDigitalMask` is
`if (status != 0) return;`, a test of the pointer. -/
def unsafeManipulateDIO (hal : DIOServices) (regs : DIORegisters) (handle : DigitalHandle)
    (status : StatusPtr) : DIOCall :=
  if hal.isDIOPort handle then
    let (mask, value) := hal.computeDigitalMask handle status.value
    let status := { status with value := value }
    if status.addr ≠ 0 then .returned status
    else .invoked (dioSetProxy regs mask) status
  else .returned { status with value := hal.handleError }

/-- **What `func` can do through the proxy.** Whatever calls `func` makes on
the proxy, in any number and order, every bit of the output-enable and output
registers outside the mask keeps the value read under the DIO mutex, and each
bit of the mask ends as the last `SetOutputMode` or `SetInputMode` call set its
direction, and the last `SetOutputTrue` or `SetOutputFalse` call its level; a
bit no call of its kind touched keeps the value read. -/
theorem dioSetProxy_calls (r : DIORegisters) (mask : BitVec 32) (cs : List ProxyCall) (i : Fin 32) :
    ((dioSetProxy r mask).calls r cs).outputEnable.getLsbD i =
        (if mask.getLsbD i then
          (cs.filterMap ProxyCall.direction).getLast?.getD (r.outputEnable.getLsbD i)
        else r.outputEnable.getLsbD i) ∧
      ((dioSetProxy r mask).calls r cs).digitalOutput.getLsbD i =
        (if mask.getLsbD i then
          (cs.filterMap ProxyCall.level).getLast?.getD (r.digitalOutput.getLsbD i)
        else r.digitalOutput.getLsbD i) := by
  rw [DIOSetProxy.calls_outputEnable, DIOSetProxy.calls_digitalOutput]
  constructor
  · cases (cs.filterMap ProxyCall.direction).getLast? with
    | none => split <;> rfl
    | some b => exact (image_getLsbD _ mask b i).trans (by split <;> rfl)
  · cases (cs.filterMap ProxyCall.level).getLast? with
    | none => split <;> rfl
    | some b => exact (image_getLsbD _ mask b i).trans (by split <;> rfl)

/-- **`func` is never called through a real status pointer.** On a DIO port
whose `ComputeDigitalMask` leaves `*status` at `0`, a status pointer that is
not `nullptr` makes the call return before `func`, with `*status` still `0`. -/
theorem unsafeManipulateDIO_skips_func (hal : DIOServices) (regs : DIORegisters)
    (handle : DigitalHandle) (status : StatusPtr) (hp : hal.isDIOPort handle = true)
    (hm : (hal.computeDigitalMask handle status.value).2 = 0) (ha : status.addr ≠ 0) :
    unsafeManipulateDIO hal regs handle status = .returned { status with value := 0 } := by
  simp only [ unsafeManipulateDIO, hp, if_true, ne_eq, ha, not_false_eq_true, hm]

/-- Every handle is a DIO port of channel `handle % 32`, and the mask
computation succeeds. -/
def everyPort : DIOServices where
  isDIOPort _ := true
  computeDigitalMask handle _ := (1#32 <<< (handle.toNat % 32), 0)
  handleError := BitVec.ofInt 32 (-1098)

theorem unsafeManipulateDIO_skips_func_port3 :
    everyPort.isDIOPort 3 = true ∧ (everyPort.computeDigitalMask 3 0).2 = 0 ∧
      unsafeManipulateDIO everyPort ⟨0, 0⟩ 3 ⟨8, 0⟩ = .returned ⟨8, 0⟩ :=
  ⟨rfl, rfl, unsafeManipulateDIO_skips_func everyPort ⟨0, 0⟩ 3 ⟨8, 0⟩ rfl rfl (by decide)⟩

end Wpilib.Hal

import GfpDrivers.Basic
import GfpDrivers.Lib.TryAll

/-!
Pin multiplexing (`pinctrl/pinmux.c`). A setting takes all pins of its group for a
device, one by one, and is then recorded on them; several settings of one device may
take the same pin. A pin may also be taken as a GPIO line, which strict controllers
do not allow together with a setting. The results of the callbacks of the controller
come from outside.
-/

namespace GfpDrivers.Pinctrl

open Lib

/-- The pin controller and the settings for it. A group lists each pin once. -/
structure PinctrlDev (ς : Type) where
  registered : ℕ → Bool
  strict : Bool
  hasRequest : Bool
  hasGpioRequestEnable : Bool
  group : ς → List ℕ
  group_nodup : ∀ setting, (group setting).Nodup
  devName : ς → String

/-- `struct pin_desc` -/
@[ext]
structure PinDesc (ς : Type) where
  muxUsecount : ℕ
  muxOwner : Option String
  muxSetting : Option ς
  gpioOwner : Option String

/-- The results of the callbacks that a call makes. -/
structure Env where
  request : ℕ → ℤ
  gpioRequestEnable : ℤ
  setMux : ℤ
  allocOwner : Bool

abbrev Pins (ς : Type) := ℕ → PinDesc ς

variable {ς : Type} [DecidableEq ς] (c : PinctrlDev ς) (env : Env)

/-- `pin_request`, for a setting if `gpio` is not set -/
def pinRequest (owner : String) (gpio : Bool) (pins : Pins ς) (pin : ℕ) : Pins ς × ℤ :=
  if c.registered pin = false then (pins, -EINVAL)
  else
    let desc := pins pin
    if (gpio = false ∨ c.strict) ∧ desc.muxUsecount ≠ 0 ∧ desc.muxOwner ≠ some owner then (pins, -EINVAL)
    else if (gpio ∨ c.strict) ∧ desc.gpioOwner ≠ none then (pins, -EINVAL)
    else
      let taken := if gpio then { desc with gpioOwner := some owner }
        else { desc with muxUsecount := desc.muxUsecount + 1 }
      if gpio = false ∧ 1 < taken.muxUsecount then (Function.update pins pin taken, 0)
      else
        let taken := if gpio then taken else { taken with muxOwner := some owner }
        let status :=
          if gpio ∧ c.hasGpioRequestEnable then env.gpioRequestEnable
          else if c.hasRequest then env.request pin
          else 0
        if status ≠ 0 then
          let freed := if gpio then { taken with gpioOwner := none }
            else
              let count := taken.muxUsecount - 1
              { taken with muxUsecount := count, muxOwner := if count = 0 then none else taken.muxOwner }
          (Function.update pins pin freed, status)
        else (Function.update pins pin taken, 0)

/-- `pin_free`, from a setting if `gpio` is not set -/
def pinFree (gpio : Bool) (pins : Pins ς) (pin : ℕ) : Pins ς :=
  if c.registered pin = false then pins
  else
    let desc := pins pin
    if gpio then Function.update pins pin { desc with gpioOwner := none }
    else if desc.muxUsecount = 0 then pins
    else
      let desc := { desc with muxUsecount := desc.muxUsecount - 1 }
      if desc.muxUsecount ≠ 0 then Function.update pins pin desc
      else Function.update pins pin { desc with muxOwner := none, muxSetting := none }

/-- Records a setting on the pins of a group, or clears what is recorded. -/
def recordSetting (setting : Option ς) (group : List ℕ) (pins : Pins ς) : Pins ς :=
  group.foldl (fun pins pin =>
    let desc := pins pin
    if c.registered pin = false then pins else Function.update pins pin { desc with muxSetting := setting }) pins

/-- `pinmux_enable_setting` -/
def pinmuxEnableSetting (setting : ς) (pins : Pins ς) : Pins ς × ℤ :=
  match tryAll (pinRequest c env (c.devName setting) false) (c.group setting) [] pins with
  | (pins, ret, visited) =>
      if ret ≠ 0 then (unwind (fun pins pin => (pinFree c false pins pin, 0)) visited.tail pins, ret)
      else
        let pins := recordSetting c (some setting) (c.group setting) pins
        if env.setMux ≠ 0 then
          let pins := recordSetting c none (c.group setting) pins
          (unwind (fun pins pin => (pinFree c false pins pin, 0)) visited pins, env.setMux)
        else (pins, 0)

/-- `pinmux_disable_setting` -/
def pinmuxDisableSetting (setting : ς) (pins : Pins ς) : Pins ς :=
  (c.group setting).foldl (fun pins pin =>
    if c.registered pin = false then pins
    else if (pins pin).muxSetting = some setting then pinFree c false pins pin
    else pins) pins

/-- `pinmux_request_gpio` -/
def pinmuxRequestGpio (rangeName : String) (pin gpio : ℕ) (pins : Pins ς) : Pins ς × ℤ :=
  let owner := rangeName ++ ":" ++ toString gpio
  if env.allocOwner = false then (pins, -ENOMEM) else pinRequest c env owner true pins pin

/-- `pinmux_free_gpio` -/
def pinmuxFreeGpio (pin : ℕ) (pins : Pins ς) : Pins ς := pinFree c true pins pin

/-! ### Runs -/

/-- The pins, and the settings that are enabled. -/
structure State (ς : Type) where
  pins : Pins ς
  enabled : List ς

inductive Call (ς : Type) where
  | enable (setting : ς)
  | disable (setting : ς)
  | requestGpio (rangeName : String) (pin gpio : ℕ)
  | freeGpio (pin : ℕ)

def call (x : State ς) : Call ς → State ς × ℤ
  | .enable setting =>
      match pinmuxEnableSetting c env setting x.pins with
      | (pins, ret) => (⟨pins, if ret ≠ 0 then x.enabled else setting :: x.enabled⟩, ret)
  | .disable setting => (⟨pinmuxDisableSetting c setting x.pins, x.enabled.erase setting⟩, 0)
  | .requestGpio rangeName pin gpio =>
      match pinmuxRequestGpio c env rangeName pin gpio x.pins with
      | (pins, ret) => ({ x with pins := pins }, ret)
  | .freeGpio pin => ({ x with pins := pinmuxFreeGpio c pin x.pins }, 0)

def step (x : State ς) (a : Call ς × Env) : Option (State ς) := some (call c a.2 x a.1).1

/-- The pins when the controller is registered. -/
def State.initial : State ς where
  pins := fun _ => ⟨0, none, none, none⟩
  enabled := []

end GfpDrivers.Pinctrl

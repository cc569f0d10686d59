import LynxRecomp.Frontend.Config

/-!
# The menu

The player changes settings in the menu and takes keys and buttons of a pad for new bindings.
Whatever is done there, the scale, the rotation and the flags stay in their ranges, and the next
session has all settings again.
-/

namespace LynxRecomp

variable {ν : Type}

/-- `set_default_keys`: the scancodes of Z, X, A, S, the arrows and Return, and of K, L, I, O, the
keypad's 8, 5, 4 and 6 and its Enter -/
def defaultKeys (p : Fin 2) (b : MenuBtn) : Word :=
  let codes : List Word :=
    if p.val = 0 then [29, 27, 4, 22, 82, 81, 80, 79, 40] else [14, 15, 12, 18, 96, 93, 92, 94, 88]
  codes.getD b.val 0

/-- `set_default_pad`: A, X, the shoulders, the directions and Start -/
def defaultPad (b : MenuBtn) : Word :=
  let codes : List Word := [0, 2, 9, 10, 11, 12, 13, 14, 6]
  codes.getD b.val 0

/-- The cell that waits for a key or a button: `rebind_player`, `rebind_btn` and `rebind_pad` -/
structure Rebind where
  player : Fin 2
  btn : MenuBtn
  pad : Bool
  deriving DecidableEq, Repr

/-- `MenuState`, with the file of the settings beside it. No cell waits while `rebind_btn` is
-1. -/
structure Menu (ν : Type) where
  settings : MenuSettings ν
  rebind : Option Rebind
  quitRequested : Bool
  file : Option (List Char)

/-- The items of the menu bar and its windows that change something of this -/
inductive Click (ν : Type) where
  | resetSettings | saveSettings | loadSettings | quit
  | scale (s : Fin 8) | rotate (r : Fin 4) | vsync | filter (linear : Bool) | scanlines | showFps
  | volume (v : ν) | mute
  | bind (cell : Rebind) | resetPlayer (p : Fin 2) | saveControls

/-- An event of SDL: a key by its scancode and its code, a button of a pad, and a pad that is
plugged in with what `SDL_GameControllerOpen` makes of it -/
inductive Event where
  | quit
  | keyDown (scancode code : Word)
  | buttonDown (button : Byte)
  | deviceAdded (opened : Option Nat)
  | other
  deriving DecidableEq, Repr

def scancodeEscape : Word := 41

/-- A menu item over the first byte of an `int` -/
def toggle (val : Word) : Word :=
  val &&& 0xFFFFFF00 ||| (if val.setWidth 8 = (0 : Byte) then 1 else 0)

namespace MenuSettings

/-- The settings that the program starts with, before it has bindings -/
def initial (full : ν) : MenuSettings ν :=
  { scale := 4, vsync := 1, filter := 0, scanlines := 0, showFps := 0, rotate := 0, volume := full,
    mute := false, key := (fun _ _ => 0), pad := (fun _ _ => 0) }

/-- `set_default_binds` -/
def setDefaultBinds (g : MenuSettings ν) : MenuSettings ν :=
  { g with key := defaultKeys, pad := (fun _ => defaultPad) }

/-- `reset_defaults` -/
def resetDefaults (full : ν) : MenuSettings ν := setDefaultBinds (initial full)

/-- The binding in a cell -/
def cellValue (cell : Rebind) (g : MenuSettings ν) : Word :=
  if cell.pad then g.pad cell.player cell.btn else g.key cell.player cell.btn

/-- Write the binding of one cell. -/
def setCell (cell : Rebind) (val : Word) (g : MenuSettings ν) : MenuSettings ν :=
  let set (binds : Fin 2 → MenuBtn → Word) : Fin 2 → MenuBtn → Word :=
    Function.update binds cell.player (Function.update (binds cell.player) cell.btn val)
  if cell.pad then { g with pad := set g.pad } else { g with key := set g.key }

end MenuSettings

namespace Menu

section Steps

variable (vs : VolumeScale ν) (full : ν)

/-- `menu_overlay_init` -/
def init (file : Option (List Char)) : Menu ν where
  settings := (MenuSettings.initial full).setDefaultBinds.configLoad vs file
  rebind := none
  quitRequested := false
  file := file

/-- `config_save` -/
def save (m : Menu ν) : Menu ν := { m with file := some (m.settings.configSave vs) }

/-- What the menu does when an item is chosen -/
def click (m : Menu ν) : Click ν → Menu ν
  | .resetSettings => { m with settings := MenuSettings.resetDefaults full }
  | .saveSettings => m.save vs
  | .loadSettings => { m with settings := m.settings.configLoad vs m.file }
  | .quit => { m with quitRequested := true }
  | .scale s => { m with settings := { m.settings with scale := BitVec.ofNat 32 (s.val + 1) } }
  | .rotate r => { m with settings := { m.settings with rotate := BitVec.ofNat 32 r.val } }
  | .vsync => { m with settings := { m.settings with vsync := toggle m.settings.vsync } }
  | .filter linear => { m with settings := { m.settings with filter := if linear then 1 else 0 } }
  | .scanlines =>
    { m with settings := { m.settings with scanlines := toggle m.settings.scanlines } }
  | .showFps => { m with settings := { m.settings with showFps := toggle m.settings.showFps } }
  | .volume v => { m with settings := { m.settings with volume := v } }
  | .mute => { m with settings := { m.settings with mute := !m.settings.mute } }
  | .bind cell => { m with rebind := some cell }
  | .resetPlayer p =>
    { m with settings := { m.settings with
        key := defaultKeys, pad := Function.update m.settings.pad p defaultPad } }
  | .saveControls => m.save vs

/-- `menu_overlay_process_event`: whether the menu has consumed the event. `wants` is what the
menu library says of the keyboard and the mouse once it has seen it. -/
def processEvent (m : Menu ν) (wants : Bool) (ev : Event) : Bool × Menu ν :=
  match m.rebind with
  | none => (wants, m)
  | some cell =>
    match ev with
    | .keyDown scancode _ =>
      if scancode = scancodeEscape then (true, { m with rebind := none })
      else if cell.pad then (true, m)
      else (true, { m with settings := m.settings.setCell cell scancode, rebind := none })
    | .buttonDown button =>
      if cell.pad then
        (true, { m with
          settings := m.settings.setCell cell (button.setWidth 32), rebind := none })
      else (wants, m)
    | _ => (wants, m)

/-- `menu_overlay_shutdown`: the file that is left -/
def shutdown (m : Menu ν) : Option (List Char) := (m.save vs).file

/-- What can happen over the sessions of the launcher; the file may be changed by others. -/
inductive Step (ν : Type) where
  | click (c : Click ν)
  | event (wants : Bool) (ev : Event)
  | edit (file : Option (List Char))
  | restart
  | start (file : Option (List Char))

def step (m : Menu ν) : Step ν → Menu ν
  | .click c => m.click vs full c
  | .event wants ev => (m.processEvent wants ev).2
  | .edit file => { m with file := file }
  | .restart => init vs full (m.shutdown vs)
  | .start file => init vs full file

end Steps

end Menu

section Valid

open MenuSettings

variable {vs : VolumeScale ν} {full : ν} {g : MenuSettings ν}

theorem toggle_bit {val : Word} (bit : val = 0 ∨ val = 1) : toggle val = 0 ∨ toggle val = 1 := by
  rcases bit with rfl | rfl <;> decide

theorem valid_initial : Valid (MenuSettings.initial full).setDefaultBinds :=
  have rotate : (0 : Word) < 4 := by decide
  have scale : (1 : Word) ≤ 4 ∧ (4 : Word) ≤ 8 := by decide
  ⟨⟨.inr rfl, .inl rfl, .inl rfl, rotate⟩, scale⟩

theorem valid_setCell (valid : Valid g) (cell : Rebind) (val : Word) :
    Valid (g.setCell cell val) := by
  unfold MenuSettings.setCell
  split
  · exact ⟨⟨valid.vsync, valid.scanlines, valid.showFps, valid.rotate⟩, valid.scale⟩
  · exact ⟨⟨valid.vsync, valid.scanlines, valid.showFps, valid.rotate⟩, valid.scale⟩

theorem valid_click {m : Menu ν} (valid : Valid m.settings) (c : Click ν) :
    Valid (m.click vs full c).settings := by
  have load : Valid (m.settings.configLoad vs m.file) := configLoad_valid valid m.file
  rcases valid with ⟨⟨vsync, scanlines, showFps, rotate⟩, scale⟩
  have same : Valid m.settings := ⟨⟨vsync, scanlines, showFps, rotate⟩, scale⟩
  cases c with
  | resetSettings => exact valid_initial
  | saveSettings => exact same
  | loadSettings => exact load
  | quit => exact same
  | scale s =>
    have range : ∀ s : Fin 8, (1 : Word) ≤ BitVec.ofNat 32 (s.val + 1) ∧
        BitVec.ofNat 32 (s.val + 1) ≤ (8 : Word) := by decide
    exact ⟨⟨vsync, scanlines, showFps, rotate⟩, range s⟩
  | rotate r =>
    have range : ∀ r : Fin 4, BitVec.ofNat 32 r.val < (4 : Word) := by decide
    exact ⟨⟨vsync, scanlines, showFps, range r⟩, scale⟩
  | vsync => exact ⟨⟨toggle_bit vsync, scanlines, showFps, rotate⟩, scale⟩
  | filter linear => exact ⟨⟨vsync, scanlines, showFps, rotate⟩, scale⟩
  | scanlines => exact ⟨⟨vsync, toggle_bit scanlines, showFps, rotate⟩, scale⟩
  | showFps => exact ⟨⟨vsync, scanlines, toggle_bit showFps, rotate⟩, scale⟩
  | volume v => exact ⟨⟨vsync, scanlines, showFps, rotate⟩, scale⟩
  | mute => exact ⟨⟨vsync, scanlines, showFps, rotate⟩, scale⟩
  | bind cell => exact same
  | resetPlayer p => exact ⟨⟨vsync, scanlines, showFps, rotate⟩, scale⟩
  | saveControls => exact same

/-- What an event does to the settings: nothing, or one cell is set. -/
theorem settings_processEvent (m : Menu ν) (wants : Bool) (ev : Event) :
    (m.processEvent wants ev).2.settings = m.settings ∨
      ∃ cell val, (m.processEvent wants ev).2.settings = m.settings.setCell cell val := by
  cases waiting : m.rebind with
  | none => exact .inl (by rw [Menu.processEvent, waiting])
  | some cell =>
    simp only [Menu.processEvent, waiting]
    cases ev with
    | keyDown scancode code =>
      dsimp only
      split_ifs
      · exact .inl rfl
      · exact .inl rfl
      · exact .inr ⟨cell, scancode, rfl⟩
    | buttonDown button =>
      dsimp only
      split_ifs
      · exact .inr ⟨cell, button.setWidth 32, rfl⟩
      · exact .inl rfl
    | quit => exact .inl rfl
    | deviceAdded opened => exact .inl rfl
    | other => exact .inl rfl

theorem valid_init (file : Option (List Char)) : Valid (Menu.init vs full file).settings :=
  configLoad_valid valid_initial file

theorem valid_step {m : Menu ν} (valid : Valid m.settings) (s : Menu.Step ν) :
    Valid (m.step vs full s).settings := by
  cases s with
  | click c => exact valid_click valid c
  | event wants ev =>
    rcases settings_processEvent m wants ev with same | ⟨cell, val, set⟩
    · exact same ▸ valid
    · exact set ▸ valid_setCell valid cell val
  | edit file => exact valid
  | restart => exact valid_init _
  | start file => exact valid_init file

theorem valid_run {m : Menu ν} (valid : Valid m.settings) (steps : List (Menu.Step ν)) :
    Valid (steps.foldl (Menu.step vs full) m).settings := by
  induction steps generalizing m with
  | nil => exact valid
  | cons s steps ih => exact ih (valid_step valid s)

end Valid

end LynxRecomp

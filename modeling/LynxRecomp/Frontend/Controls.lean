import LynxRecomp.Frontend.Menu
import LynxRecomp.Recompiler.LynxRun

/-!
# The controls

What the player holds on the keyboard and the pad reaches the game through the bindings of the
menu. A key or a button that was taken for a cell acts from then on and over the sessions.
-/

namespace LynxRecomp

variable {ν η : Type}

/-- What SDL says of the keyboard and of the pads that are opened -/
structure Devices where
  key : Word → Bool
  button : Nat → Word → Bool

/-- The menu and `s_pad` -/
structure Launcher (ν : Type) where
  menu : Menu ν
  pads : Fin 2 → Option Nat

/-- Player 1, whose controls the game has when it is played alone -/
def firstPlayer : Fin 2 := ⟨0, Nat.two_pos⟩

/-- `SDLK_ESCAPE` -/
def keyEscape : Word := 27

/-- `LYNX_MENU_BTN_PAUSE` -/
def menuBtnPause : MenuBtn := 8

/-- `joy_bit` -/
def joyBit (b : MenuBtn) : Byte :=
  let bits : List Byte := [0x01, 0x02, 0x08, 0x04, 0x80, 0x40, 0x20, 0x10, 0]
  bits.getD b.val 0

namespace Devices

/-- Whether the key `sc`, one of `SDL_NUM_SCANCODES`, is down -/
def keyHeld (d : Devices) (sc : Word) : Bool :=
  (0 : Word).sle sc && sc.slt 512 && d.key sc

/-- Whether the button `pb` of a pad is down -/
def buttonHeld (d : Devices) (pad : Option Nat) (pb : Word) : Bool :=
  match pad with
  | some pad => (0 : Word).sle pb && d.button pad pb
  | none => false

end Devices

namespace Launcher

/-- Whether a binding of player `p` for `b` is held: `pressed` -/
def pressed (d : Devices) (l : Launcher ν) (p : Fin 2) (b : MenuBtn) : Bool :=
  d.keyHeld (l.menu.settings.key p b) || d.buttonHeld (l.pads p) (l.menu.settings.pad p b)

/-- What a pressed button adds to the joystick and the switches -/
def press (b : MenuBtn) (js : Byte × Byte) : Byte × Byte :=
  if b = menuBtnPause then (js.1, js.2 ||| 0x01) else (js.1 ||| joyBit b, js.2)

/-- `read_player` -/
def readPlayer (d : Devices) (l : Launcher ν) (p : Fin 2) : Byte × Byte :=
  (List.finRange 9).foldl (fun js b => if l.pressed d p b then press b js else js) (0, 0)

/-- A new pad is for the first player without one. -/
def adopt (opened : Option Nat) (pads : Fin 2 → Option Nat) : Fin 2 → Option Nat :=
  match (List.finRange 2).find? fun p => (pads p).isNone with
  | some p => Function.update pads p opened
  | none => pads

/-- One event of `lynx_platform_poll`, with what the menu library wants after it; whether the
program goes on -/
def pollEvent (keep : Bool) (l : Launcher ν) (wants : Bool) (ev : Event) : Bool × Launcher ν :=
  let (consumed, menu) := l.menu.processEvent wants ev
  match ev with
  | .quit => (false, { l with menu := menu })
  | .deviceAdded opened => (keep, { menu := menu, pads := adopt opened l.pads })
  | .keyDown _ code =>
    (if !consumed && code == keyEscape then false else keep, { l with menu := menu })
  | _ => (keep, { l with menu := menu })

def pollEvents (evs : List (Bool × Event)) (keep : Bool) (l : Launcher ν) : Bool × Launcher ν :=
  evs.foldl (fun (keep, l) (wants, ev) => l.pollEvent keep wants ev) (keep, l)

/-- `menu_overlay_is_active` -/
def isActive (l : Launcher ν) (wants : Bool) : Bool := l.menu.rebind.isSome || wants

/-- `lynx_platform_poll`: the events with what the menu library wants after each, and what it
wants at last -/
def poll (d : Devices) (evs : List (Bool × Event)) (wants : Bool) (l : Launcher ν) (hw : Hw η) :
    Bool × Launcher ν × Hw η :=
  let (keep, l) := l.pollEvents evs true
  let (joy, sw) := if l.isActive wants then (0, 0) else l.readPlayer d firstPlayer
  (keep && !l.menu.quitRequested, l, lynxInputSet joy sw hw)

end Launcher

/-- Whether the game reads a button as pressed, in JOYSTICK or SWITCHES -/
def seesButton (hw : Hw η) (b : MenuBtn) : Bool :=
  if b = menuBtnPause then (lynxMemRead 0xFCB1 hw).1 &&& 0x01 != 0
  else (lynxMemRead 0xFCB0 hw).1 &&& joyBit b != 0

section Reading

/-- Masks that are put together show whether one of them was there. -/
theorem foldl_masks {α : Type} {w : Nat} (P : α → Bool) (mask : α → BitVec w) (k : BitVec w)
    (xs : List α) (j : BitVec w) :
    xs.foldl (fun j x => if P x then j ||| mask x else j) j &&& k = 0#w ↔
      j &&& k = 0#w ∧ ∀ x ∈ xs, P x → mask x &&& k = 0#w := by
  induction xs generalizing j with
  | nil => simp
  | cons x xs ih =>
    rw [List.foldl_cons, ih, List.forall_mem_cons]
    cases set : P x with
    | false => simp
    | true =>
      rw [if_pos rfl, BitVec.and_or_distrib_right, BitVec.or_eq_zero_iff]
      simp [and_assoc]

/-- A bit that only one of the masks has shows that one. -/
theorem foldl_masks_shows {n w : Nat} (P : Fin n → Bool) {mask : Fin n → BitVec w} {k : BitVec w}
    {b : Fin n} (own : ∀ b', mask b' &&& k = 0#w ↔ b' ≠ b) :
    ((List.finRange n).foldl (fun j b => if P b then j ||| mask b else j) 0#w &&& k != 0#w) =
      P b := by
  rw [Bool.eq_iff_iff, bne_iff_ne, ne_eq, foldl_masks]
  simp only [own]
  constructor
  · intro shown
    by_contra unset
    exact shown ⟨BitVec.zero_and, fun b' _ set same => unset (same ▸ set)⟩
  · intro set unshown
    exact unshown.2 b (List.mem_finRange b) set rfl

/-- The mask of a button in the switches -/
def swBit (b : MenuBtn) : Byte := if b = menuBtnPause then 0x01 else 0

theorem press_masks (b : MenuBtn) (js : Byte × Byte) :
    Launcher.press b js = (js.1 ||| joyBit b, js.2 ||| swBit b) := by
  unfold Launcher.press swBit
  split
  next pause =>
    have none : joyBit menuBtnPause = 0#8 := rfl
    rw [pause, none, BitVec.or_zero]
  next => exact congrArg _ (BitVec.or_zero).symm

variable (d : Devices) (l : Launcher ν) (p : Fin 2)

/-- The joystick and the switches are collected independently. -/
theorem readPlayer_masks :
    l.readPlayer d p =
      ((List.finRange 9).foldl (fun j b => if l.pressed d p b then j ||| joyBit b else j) 0,
        (List.finRange 9).foldl (fun s b => if l.pressed d p b then s ||| swBit b else s) 0) := by
  have each (bs : List MenuBtn) (js : Byte × Byte) :
      bs.foldl (fun js b => if l.pressed d p b then Launcher.press b js else js) js =
        (bs.foldl (fun j b => if l.pressed d p b then j ||| joyBit b else j) js.1,
          bs.foldl (fun s b => if l.pressed d p b then s ||| swBit b else s) js.2) := by
    induction bs generalizing js with
    | nil => rfl
    | cons b bs ih =>
      simp only [List.foldl_cons]
      rw [ih]
      by_cases held : l.pressed d p b
      · simp only [if_pos held, press_masks]
      · simp only [if_neg held]
  exact each _ (0, 0)

/-- Two buttons of the joystick share no bit. -/
theorem joyBit_and : ∀ b : MenuBtn, b ≠ menuBtnPause →
    ∀ b', joyBit b' &&& joyBit b = 0#8 ↔ b' ≠ b := by
  decide

theorem swBit_and : ∀ b' : MenuBtn, swBit b' &&& 0x01#8 = 0#8 ↔ b' ≠ menuBtnPause := by
  decide

/-- The game sees the buttons that are pressed and no others. -/
theorem seesButton_readPlayer (hw : Hw η) (b : MenuBtn) :
    seesButton (lynxInputSet (l.readPlayer d p).1 (l.readPlayer d p).2 hw) b =
      l.pressed d p b := by
  have joystick (joy sw : Byte) : (lynxMemRead 0xFCB0 (lynxInputSet joy sw hw)).1 = joy := rfl
  have switches (joy sw : Byte) : (lynxMemRead 0xFCB1 (lynxInputSet joy sw hw)).1 = sw := rfl
  rw [seesButton, joystick, switches, readPlayer_masks]
  split
  next pause => exact pause ▸ foldl_masks_shows (l.pressed d p) swBit_and
  next play => exact foldl_masks_shows (l.pressed d p) (joyBit_and b play)

end Reading

section Polling

theorem menu_pollEvents (evs : List (Bool × Event)) (keep : Bool) (l : Launcher ν) :
    (l.pollEvents evs keep).2.menu =
      evs.foldl (fun m e => (m.processEvent e.1 e.2).2) l.menu := by
  induction evs generalizing keep l with
  | nil => rfl
  | cons e evs ih =>
    have one : (l.pollEvent keep e.1 e.2).2.menu = (l.menu.processEvent e.1 e.2).2 := by
      unfold Launcher.pollEvent
      cases e.2 <;> rfl
    rw [List.foldl_cons, ← one]
    exact ih (l.pollEvent keep e.1 e.2).1 (l.pollEvent keep e.1 e.2).2

/-- While no cell waits, the menu takes no event. -/
theorem menu_pollEvents_idle {l : Launcher ν} (idle : l.menu.rebind = none)
    (evs : List (Bool × Event)) (keep : Bool) : (l.pollEvents evs keep).2.menu = l.menu := by
  rw [menu_pollEvents]
  induction evs with
  | nil => rfl
  | cons e evs ih =>
    have same : (l.menu.processEvent e.1 e.2).2 = l.menu := by
      rw [Menu.processEvent, idle]
    rw [List.foldl_cons, same]
    exact ih

/-- What the game sees after a poll: nothing while the menu is active, else the pressed
buttons. -/
theorem poll_sees (d : Devices) (evs : List (Bool × Event)) (wants : Bool) (l : Launcher ν)
    (hw : Hw η) (b : MenuBtn) :
    seesButton (l.poll d evs wants hw).2.2 b =
      (!(l.poll d evs wants hw).2.1.isActive wants &&
        (l.poll d evs wants hw).2.1.pressed d firstPlayer b) := by
  unfold Launcher.poll
  dsimp only
  split
  next active =>
    have nothing : seesButton (lynxInputSet 0 0 hw) b = false := by
      unfold seesButton
      split
      · exact bne_eq_false_iff_eq.mpr BitVec.zero_and
      · exact bne_eq_false_iff_eq.mpr BitVec.zero_and
    rw [active]
    exact nothing
  next passive =>
    rw [Bool.not_eq_true] at passive
    rw [passive]
    exact seesButton_readPlayer d _ firstPlayer hw b

end Polling

section Bindings

/-- The binding that an event gives to a cell that waits -/
def Event.gives (cell : Rebind) : Event → Option Word
  | .keyDown scancode _ => if scancode = scancodeEscape ∨ cell.pad then none else some scancode
  | .buttonDown button => if cell.pad then some (button.setWidth 32) else none
  | _ => none

/-- The steps that are not about bindings: no reset, no other cell chosen, and no other file than
the one that a session leaves behind read -/
def Menu.Step.KeepsBinds : Menu.Step ν → Prop
  | .click .resetSettings | .click .loadSettings | .click (.bind _) | .click (.resetPlayer _)
  | .start _ => False
  | _ => True

/-- Whether the key or the button in a cell is down -/
def Devices.held (d : Devices) (pads : Fin 2 → Option Nat) (cell : Rebind) (val : Word) : Bool :=
  if cell.pad then d.buttonHeld (pads cell.player) val else d.keyHeld val

/-- The cell has its binding, and none waits. -/
structure Bound (cell : Rebind) (val : Word) (m : Menu ν) : Prop where
  idle : m.rebind = none
  value : m.settings.cellValue cell = val

variable {vs : VolumeScale ν} {full : ν} {cell : Rebind} {val : Word} {m : Menu ν}

theorem cellValue_setCell (g : MenuSettings ν) : (g.setCell cell val).cellValue cell = val := by
  unfold MenuSettings.setCell MenuSettings.cellValue
  cases cell.pad <;> simp

/-- The cell that was chosen takes what it is given. -/
theorem bound_taken {ev : Event} (given : ev.gives cell = some val) (wants : Bool) :
    Bound cell val ((m.click vs full (.bind cell)).processEvent wants ev).2 := by
  cases ev with
  | keyDown scancode code =>
    by_cases refused : scancode = scancodeEscape ∨ cell.pad
    · simp only [Event.gives, if_pos refused, reduceCtorEq] at given
    · simp only [Event.gives, if_neg refused, Option.some.injEq] at given
      subst given
      rw [not_or] at refused
      simp only [Menu.click, Menu.processEvent, if_neg refused.1, if_neg refused.2]
      exact ⟨rfl, cellValue_setCell m.settings⟩
  | buttonDown button =>
    by_cases pad : cell.pad
    · simp only [Event.gives, if_pos pad, Option.some.injEq] at given
      simp only [Menu.click, Menu.processEvent, if_pos pad, given]
      exact ⟨rfl, cellValue_setCell m.settings⟩
    · simp only [Event.gives, if_neg pad, reduceCtorEq] at given
  | quit => cases given
  | deviceAdded opened => cases given
  | other => cases given

theorem Bound.step (bound : Bound cell val m) {s : Menu.Step ν} (other : s.KeepsBinds) :
    Bound cell val (m.step vs full s) := by
  rcases bound with ⟨idle, value⟩
  cases s with
  | click c =>
    cases c with
    | resetSettings | loadSettings | bind | resetPlayer => exact other.elim
    | _ => exact ⟨idle, value⟩
  | event wants ev =>
    have same : m.step vs full (.event wants ev) = m := by
      rw [Menu.step, Menu.processEvent, idle]
    rw [same]
    exact ⟨idle, value⟩
  | edit file => exact ⟨idle, value⟩
  | restart =>
    have loaded := MenuSettings.configLoad_configSave vs m.settings
      (MenuSettings.initial full).setDefaultBinds
    have kept : (m.step vs full .restart).settings = m.settings.normal vs := loaded
    exact ⟨rfl, by rw [kept]; exact value⟩
  | start file => exact other.elim

theorem Bound.run (bound : Bound cell val m) {steps : List (Menu.Step ν)}
    (others : ∀ s ∈ steps, s.KeepsBinds) :
    Bound cell val (steps.foldl (Menu.step vs full) m) := by
  induction steps generalizing m with
  | nil => exact bound
  | cons s steps ih =>
    rw [List.forall_mem_cons] at others
    exact ih (bound.step others.1) others.2

end Bindings

end LynxRecomp

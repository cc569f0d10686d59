import LynxRecomp.Lib.KeyValue
import LynxRecomp.Runtime.Hardware

/-!
# The settings of the launcher

`menu_overlay.cpp` keeps its settings in `lynx_config.ini`, a line for each. What it saves it
loads again, whatever the settings are before. No file brings the scale, the rotation or a flag
out of its range; the filter and the volume are taken as the file has them.
-/

namespace LynxRecomp

/-- `LYNX_BTN_COUNT` buttons, in the order of `LYNX_MENU_BTN_*` -/
abbrev MenuBtn := Fin 9

/-- `kBtnNames` -/
def kBtnNames : List String :=
  ["A", "B", "Option1", "Option2", "Up", "Down", "Left", "Right", "Pause"]

/-- The settings of `MenuState`, with the volume in any form -/
structure MenuSettings (ν : Type) where
  scale : Word
  vsync : Word
  filter : Word
  scanlines : Word
  showFps : Word
  rotate : Word
  volume : ν
  mute : Bool
  key : Fin 2 → MenuBtn → Word
  pad : Fin 2 → MenuBtn → Word

/-- The arithmetic of the volume: `(int)(volume * 100.0f + 0.5f)` and `val / 100.0f` -/
structure VolumeScale (ν : Type) where
  percent : ν → Word
  ofPercent : Word → ν

namespace MenuSettings

variable {ν : Type} (vs : VolumeScale ν)

/-- `p%d_key_%s` and `p%d_pad_%s` -/
def bindKey (kind : String) (p : Fin 2) (i : MenuBtn) : List Char :=
  'p' :: Numeral.digit (p.val + 1) :: '_' :: (kind.toList ++ (kBtnNames.getD i.val "").toList)

/-- The lines that `config_save` prints for player `p` -/
def bindEntries (g : MenuSettings ν) (p : Fin 2) : List (List Char × Word) :=
  (List.finRange 9).flatMap fun i =>
    [(bindKey "key_" p i, g.key p i), (bindKey "pad_" p i, g.pad p i)]

/-- The lines that `config_save` prints after the heading -/
def configEntries (g : MenuSettings ν) : List (List Char × Word) :=
  [("scale".toList, g.scale), ("vsync".toList, g.vsync), ("filter".toList, g.filter),
    ("scanlines".toList, g.scanlines), ("show_fps".toList, g.showFps), ("rotate".toList, g.rotate),
    ("volume".toList, vs.percent g.volume), ("mute".toList, if g.mute then 1 else 0)] ++
    (List.finRange 2).flatMap fun p => bindEntries g p

def configHeading : List Char := "# lynxrecomp launcher settings".toList

/-- `config_save`: the contents of the file -/
def configSave (g : MenuSettings ν) : List Char :=
  configHeading ++ '\n' :: (configEntries vs g).flatMap fun e => KeyValue.print (e.1, e.2.toInt)

/-- `btn_index_by_name` -/
def btnIndexByName (name : List Char) : Option MenuBtn :=
  (List.finRange 9).find? fun i => name == (kBtnNames.getD i.val "").toList

/-- `val ? 1 : 0` -/
def flag (val : Word) : Word := if val ≠ 0 then 1 else 0

/-- `((val % 4) + 4) % 4` -/
def quarter (val : Word) : Word := (val.srem 4 + 4).srem 4

def setBind (bind : Fin 2 → MenuBtn → Word) (p : Fin 2) (name : List Char) (val : Word) :
    Fin 2 → MenuBtn → Word :=
  match btnIndexByName name with
  | some i => Function.update bind p (Function.update (bind p) i val)
  | none => bind

/-- The last case of `config_load`: the bindings of a player -/
def bindEntry (keybuf : List Char) (val : Word) (g : MenuSettings ν) : MenuSettings ν :=
  match keybuf with
  | 'p' :: d :: '_' :: rest =>
    if d = '1' ∨ d = '2' then
      let p : Fin 2 := if d = '1' then 0 else 1
      if rest.take 4 = "key_".toList then { g with key := setBind g.key p (rest.drop 4) val }
      else if rest.take 4 = "pad_".toList then { g with pad := setBind g.pad p (rest.drop 4) val }
      else g
    else g
  | _ => g

/-- What `config_load` does with a line that `sscanf` has taken apart -/
def configEntry (keybuf : List Char) (val : Word) (g : MenuSettings ν) : MenuSettings ν :=
  if keybuf = "scale".toList then { g with scale := val }
  else if keybuf = "vsync".toList then { g with vsync := flag val }
  else if keybuf = "filter".toList then { g with filter := val }
  else if keybuf = "scanlines".toList then { g with scanlines := flag val }
  else if keybuf = "show_fps".toList then { g with showFps := flag val }
  else if keybuf = "rotate".toList then { g with rotate := quarter val }
  else if keybuf = "volume".toList then { g with volume := vs.ofPercent val }
  else if keybuf = "mute".toList then { g with mute := decide (val ≠ 0) }
  else bindEntry keybuf val g

def configLine (g : MenuSettings ν) (line : List Char) : MenuSettings ν :=
  if line.head? = some '#' ∨ line.head? = some '\n' then g
  else
    match KeyValue.scan 79 line with
    | some (keybuf, val) => configEntry vs keybuf (BitVec.ofInt 32 val) g
    | none => g

def clampScale (scale : Word) : Word :=
  let scale := if scale.slt 1 then 1 else scale
  if (8 : Word).slt scale then 8 else scale

/-- `config_load`, with the contents of the file if there is one -/
def configLoad (file : Option (List Char)) (g : MenuSettings ν) : MenuSettings ν :=
  match file with
  | none => g
  | some text =>
    let g := (KeyValue.lines 127 text).foldl (configLine vs) g
    { g with scale := clampScale g.scale }

section Valid

/-- The flags are 0 or 1, and the rotation is one of four. -/
structure Ranged (g : MenuSettings ν) : Prop where
  vsync : g.vsync = 0 ∨ g.vsync = 1
  scanlines : g.scanlines = 0 ∨ g.scanlines = 1
  showFps : g.showFps = 0 ∨ g.showFps = 1
  rotate : g.rotate < 4

/-- The scale, the rotation and the flags are some that the menu offers. Nothing is said of the
filter and the volume. -/
structure Valid (g : MenuSettings ν) : Prop extends Ranged g where
  scale : 1 ≤ g.scale ∧ g.scale ≤ 8

theorem flag_bit (val : Word) : flag val = 0 ∨ flag val = 1 := by
  unfold flag
  split
  · exact .inr rfl
  · exact .inl rfl

theorem toInt_quarter (val : Word) :
    (quarter val).toInt = (val.toInt.tmod 4 + 4).tmod 4 := by
  have rest : (val.srem 4).toInt = val.toInt.tmod 4 := BitVec.toInt_srem val 4
  have four : (4 : Word).toInt = 4 := by decide
  have above : -4 < val.toInt.tmod 4 := Int.lt_tmod_of_pos val.toInt (by decide)
  have below : val.toInt.tmod 4 < 4 := Int.tmod_lt_of_pos val.toInt (by decide)
  have sum : (val.srem 4 + 4).toInt = val.toInt.tmod 4 + 4 := by
    rw [BitVec.toInt_add, rest, four]
    exact Int.bmod_eq_of_le (by omega) (by omega)
  unfold quarter
  rw [BitVec.toInt_srem, sum, four]

theorem quarter_lt (val : Word) : quarter val < 4 := by
  have above : -4 < val.toInt.tmod 4 := Int.lt_tmod_of_pos val.toInt (by decide)
  have positive : 0 ≤ (val.toInt.tmod 4 + 4).tmod 4 := Int.tmod_nonneg _ (by omega)
  have below : (val.toInt.tmod 4 + 4).tmod 4 < 4 := Int.tmod_lt_of_pos _ (by decide)
  have whole := toInt_quarter val
  rw [BitVec.toInt_eq_toNat_cond] at whole
  rw [BitVec.lt_def]
  change _ < 4
  split at whole <;> omega

theorem clampScale_range (scale : Word) : 1 ≤ clampScale scale ∧ clampScale scale ≤ 8 := by
  have one : (1 : Word).toNat = 1 ∧ (1 : Word).toInt = 1 := by decide
  have eight : (8 : Word).toNat = 8 ∧ (8 : Word).toInt = 8 := by decide
  have signed (w : Word) := BitVec.toInt_eq_toNat_cond w
  unfold clampScale
  simp only [BitVec.slt_iff_toInt_lt, BitVec.le_def]
  by_cases low : scale.toInt < (1 : Word).toInt
  · rw [if_pos low, if_neg (by decide)]
    decide
  · rw [if_neg low]
    have size := signed scale
    by_cases high : (8 : Word).toInt < scale.toInt
    · rw [if_pos high]
      decide
    · rw [if_neg high]
      split at size <;> omega

variable {g : MenuSettings ν} {vs}

theorem Ranged.bindEntry (ranged : Ranged g) (keybuf : List Char) (val : Word) :
    Ranged (bindEntry keybuf val g) := by
  have same {key pad : Fin 2 → MenuBtn → Word} : Ranged { g with key := key, pad := pad } :=
    ⟨ranged.vsync, ranged.scanlines, ranged.showFps, ranged.rotate⟩
  unfold MenuSettings.bindEntry
  split
  · refine iteInduction (fun _ => ?_) fun _ => ranged
    exact iteInduction (fun _ => same) fun _ => iteInduction (fun _ => same) fun _ => ranged
  · exact ranged

theorem Ranged.configEntry (ranged : Ranged g) (keybuf : List Char) (val : Word) :
    Ranged (configEntry vs keybuf val g) := by
  have binds := ranged.bindEntry keybuf val
  rcases ranged with ⟨vsync, scanlines, showFps, rotate⟩
  -- one case after the other, in the order of `config_load`
  refine iteInduction (fun _ => ⟨vsync, scanlines, showFps, rotate⟩) fun _ => ?_
  refine iteInduction (fun _ => ⟨flag_bit val, scanlines, showFps, rotate⟩) fun _ => ?_
  refine iteInduction (fun _ => ⟨vsync, scanlines, showFps, rotate⟩) fun _ => ?_
  refine iteInduction (fun _ => ⟨vsync, flag_bit val, showFps, rotate⟩) fun _ => ?_
  refine iteInduction (fun _ => ⟨vsync, scanlines, flag_bit val, rotate⟩) fun _ => ?_
  refine iteInduction (fun _ => ⟨vsync, scanlines, showFps, quarter_lt val⟩) fun _ => ?_
  refine iteInduction (fun _ => ⟨vsync, scanlines, showFps, rotate⟩) fun _ => ?_
  exact iteInduction (fun _ => ⟨vsync, scanlines, showFps, rotate⟩) fun _ => binds

theorem Ranged.configLine (ranged : Ranged g) (line : List Char) :
    Ranged (configLine vs g line) := by
  unfold MenuSettings.configLine
  split
  · exact ranged
  · split
    · exact ranged.configEntry ..
    · exact ranged

theorem Ranged.foldl_configLine (ranged : Ranged g) (ls : List (List Char)) :
    Ranged (ls.foldl (MenuSettings.configLine vs) g) := by
  induction ls generalizing g with
  | nil => exact ranged
  | cons line ls ih => exact ih (ranged.configLine line)

/-- No file brings the scale, the rotation or a flag out of its range. -/
theorem configLoad_valid (valid : Valid g) (file : Option (List Char)) :
    Valid (configLoad vs file g) := by
  cases file with
  | none => exact valid
  | some text =>
    have ranged : Ranged ((KeyValue.lines 127 text).foldl (configLine vs) g) :=
      valid.toRanged.foldl_configLine _
    exact ⟨⟨ranged.vsync, ranged.scanlines, ranged.showFps, ranged.rotate⟩, clampScale_range _⟩

end Valid

section RoundTrip

/-- A line that `config_load` takes apart -/
structure ConfigKey (key : List Char) : Prop extends KeyValue.Key 79 key where
  entry : key.head? ≠ some '#'

instance decidableConfigKey (key : List Char) : Decidable (ConfigKey key) :=
  decidable_of_iff (KeyValue.Key 79 key ∧ key.head? ≠ some '#')
    ⟨fun h => ⟨h.1, h.2⟩, fun h => ⟨h.toKey, h.entry⟩⟩

theorem configKey_key (p : Fin 2) (i : MenuBtn) : ConfigKey (bindKey "key_" p i) := by
  revert p i
  decide

theorem configKey_pad (p : Fin 2) (i : MenuBtn) : ConfigKey (bindKey "pad_" p i) := by
  revert p i
  decide

theorem configKey_configEntries {g : MenuSettings ν} {e : List Char × Word}
    (member : e ∈ configEntries vs g) : ConfigKey e.1 := by
  rcases List.mem_append.mp member with plain | bind
  · have names : ∀ key ∈ ["scale", "vsync", "filter", "scanlines", "show_fps", "rotate",
        "volume", "mute"].map String.toList, ConfigKey key := by decide
    exact names e.1 (List.mem_map_of_mem (f := Prod.fst) plain)
  · rcases List.mem_flatMap.mp bind with ⟨p, -, row⟩
    rcases List.mem_flatMap.mp row with ⟨i, -, pair⟩
    rcases List.mem_pair.mp pair with rfl | rfl
    · exact configKey_key p i
    · exact configKey_pad p i

/-- An `int` has ten digits at most. -/
theorem natAbs_toInt_lt (val : Word) : val.toInt.natAbs < 10 ^ 10 := by
  have range := BitVec.toInt_lt (x := val)
  have range' := BitVec.le_toInt val
  omega

theorem configLine_print {key : List Char} (good : ConfigKey key) (val : Word)
    (g : MenuSettings ν) :
    configLine vs g (KeyValue.print (key, val.toInt)) = configEntry vs key val g := by
  have first := KeyValue.head?_print good.toKey val.toInt
  have other : ¬((KeyValue.print (key, val.toInt)).head? = some '#' ∨
      (KeyValue.print (key, val.toInt)).head? = some '\n') := by
    rw [first]
    rintro (same | same)
    · exact good.entry same
    · exact good.plain.2 (List.mem_of_mem_head? same)
  rw [configLine, if_neg other, KeyValue.scan_print good.toKey]
  simp only [BitVec.ofInt_toInt]

variable (g g' : MenuSettings ν)

/-- Loading what was saved comes to the entries one after the other. -/
theorem foldl_configLine :
    (KeyValue.lines 127 (configSave vs g)).foldl (configLine vs) g' =
      (configEntries vs g).foldl (fun g e => configEntry vs e.1 e.2 g) g' := by
  have heading : configLine vs g' (configHeading ++ ['\n']) = g' :=
    if_pos (.inl (by decide))
  have good : ∀ entry ∈ (configEntries vs g).map fun e => (e.1, e.2.toInt),
      KeyValue.Key 79 entry.1 ∧ entry.2.natAbs < 10 ^ 10 := by
    intro entry member
    rcases List.mem_map.mp member with ⟨e, inside, rfl⟩
    exact ⟨(configKey_configEntries vs inside).toKey, natAbs_toInt_lt e.2⟩
  have read := KeyValue.lines_print (n := 127) configHeading (by decide) (by decide)
    (by decide) good
  have text : configSave vs g = configHeading ++
      '\n' :: ((configEntries vs g).map fun e => (e.1, e.2.toInt)).flatMap KeyValue.print := by
    rw [List.flatMap_map]
    rfl
  rw [text, read, List.foldl_cons, heading, List.map_map, List.foldl_map]
  refine List.foldl_ext _ _ _ fun h e member => ?_
  exact configLine_print vs (configKey_configEntries vs member) e.2 h

theorem btnIndexByName_kBtnNames (i : MenuBtn) :
    btnIndexByName (kBtnNames.getD i.val "").toList = some i := by
  revert i
  decide

theorem setBind_kBtnNames (bind : Fin 2 → MenuBtn → Word) (p : Fin 2) (i : MenuBtn) (val : Word) :
    setBind bind p (kBtnNames.getD i.val "").toList val =
      Function.update bind p (Function.update (bind p) i val) := by
  rw [setBind, btnIndexByName_kBtnNames]

/-- No other setting has a name with the `p` of a player. -/
theorem configEntry_player (p : Fin 2) (rest : List Char) (val : Word) :
    configEntry vs ('p' :: Numeral.digit (p.val + 1) :: '_' :: rest) val g =
      if rest.take 4 = "key_".toList then { g with key := setBind g.key p (rest.drop 4) val }
      else if rest.take 4 = "pad_".toList then { g with pad := setBind g.pad p (rest.drop 4) val }
      else g := by
  have other {cs : List Char} (key : List Char) (front : key.head? ≠ some 'p') : 'p' :: cs ≠ key :=
    fun same => front (same ▸ rfl)
  rw [configEntry, if_neg (other _ (by decide)), if_neg (other _ (by decide)),
    if_neg (other _ (by decide)), if_neg (other _ (by decide)), if_neg (other _ (by decide)),
    if_neg (other _ (by decide)), if_neg (other _ (by decide)), if_neg (other _ (by decide)),
    bindEntry]
  have number : Numeral.digit (p.val + 1) = '1' ∨ Numeral.digit (p.val + 1) = '2' := by
    revert p
    decide
  have player : (if Numeral.digit (p.val + 1) = '1' then (0 : Fin 2) else 1) = p := by
    revert p
    decide
  simp only [number, if_true, player]

theorem configEntry_key (p : Fin 2) (i : MenuBtn) (val : Word) :
    configEntry vs (bindKey "key_" p i) val g =
      { g with key := Function.update g.key p (Function.update (g.key p) i val) } := by
  have kind : "key_".toList.length = 4 := by decide
  rw [bindKey, configEntry_player, List.take_left' kind, List.drop_left' kind, if_pos rfl,
    setBind_kBtnNames]

theorem configEntry_pad (p : Fin 2) (i : MenuBtn) (val : Word) :
    configEntry vs (bindKey "pad_" p i) val g =
      { g with pad := Function.update g.pad p (Function.update (g.pad p) i val) } := by
  have kind : "pad_".toList.length = 4 := by decide
  rw [bindKey, configEntry_player, List.take_left' kind, List.drop_left' kind,
    if_neg (by decide), if_pos rfl, setBind_kBtnNames]

/-- The lines of one player -/
theorem foldl_bindEntries (p : Fin 2) :
    (bindEntries g p).foldl (fun g e => configEntry vs e.1 e.2 g) g' =
      { g' with
        key := Function.update g'.key p (g.key p)
        pad := Function.update g'.pad p (g.pad p) } := by
  have row (l : List MenuBtn) (h : MenuSettings ν) :
      (l.flatMap fun i => [(bindKey "key_" p i, g.key p i), (bindKey "pad_" p i, g.pad p i)]).foldl
          (fun g e => configEntry vs e.1 e.2 g) h =
        { h with
          key := Function.update h.key p
            (l.foldl (fun f i => Function.update f i (g.key p i)) (h.key p))
          pad := Function.update h.pad p
            (l.foldl (fun f i => Function.update f i (g.pad p i)) (h.pad p)) } := by
    induction l generalizing h with
    | nil => simp
    | cons i l ih =>
      rw [List.flatMap_cons, List.foldl_append, List.foldl_cons, List.foldl_cons, List.foldl_nil,
        configEntry_key, configEntry_pad, ih]
      simp
  rw [bindEntries, row, KeyValue.foldl_update_all, KeyValue.foldl_update_all]

/-- The lines of both players -/
theorem foldl_binds :
    ((List.finRange 2).flatMap fun p => bindEntries g p).foldl
        (fun g e => configEntry vs e.1 e.2 g) g' = { g' with key := g.key, pad := g.pad } := by
  have row (l : List (Fin 2)) (h : MenuSettings ν) :
      (l.flatMap fun p => bindEntries g p).foldl (fun g e => configEntry vs e.1 e.2 g) h =
        { h with
          key := l.foldl (fun f p => Function.update f p (g.key p)) h.key
          pad := l.foldl (fun f p => Function.update f p (g.pad p)) h.pad } := by
    induction l generalizing h with
    | nil => rfl
    | cons p l ih =>
      rw [List.flatMap_cons, List.foldl_append, foldl_bindEntries, ih]
      rfl
  rw [row, KeyValue.foldl_update_all, KeyValue.foldl_update_all]

/-- The settings of `g` with what the file does not hold exactly: its numbers are brought into
their ranges, and the volume is in percent. -/
def normal : MenuSettings ν :=
  { g with
    scale := clampScale g.scale
    vsync := flag g.vsync
    scanlines := flag g.scanlines
    showFps := flag g.showFps
    rotate := quarter g.rotate
    volume := vs.ofPercent (vs.percent g.volume) }

section Plain

variable (val : Word)

theorem configEntry_scale : configEntry vs "scale".toList val g = { g with scale := val } := by
  rw [configEntry, if_pos rfl]

theorem configEntry_vsync :
    configEntry vs "vsync".toList val g = { g with vsync := flag val } := by
  rw [configEntry, if_neg (by decide), if_pos rfl]

theorem configEntry_filter : configEntry vs "filter".toList val g = { g with filter := val } := by
  rw [configEntry, if_neg (by decide), if_neg (by decide), if_pos rfl]

theorem configEntry_scanlines :
    configEntry vs "scanlines".toList val g = { g with scanlines := flag val } := by
  rw [configEntry, if_neg (by decide), if_neg (by decide), if_neg (by decide), if_pos rfl]

theorem configEntry_showFps :
    configEntry vs "show_fps".toList val g = { g with showFps := flag val } := by
  rw [configEntry, if_neg (by decide), if_neg (by decide), if_neg (by decide),
    if_neg (by decide), if_pos rfl]

theorem configEntry_rotate :
    configEntry vs "rotate".toList val g = { g with rotate := quarter val } := by
  rw [configEntry, if_neg (by decide), if_neg (by decide), if_neg (by decide),
    if_neg (by decide), if_neg (by decide), if_pos rfl]

theorem configEntry_volume :
    configEntry vs "volume".toList val g = { g with volume := vs.ofPercent val } := by
  rw [configEntry, if_neg (by decide), if_neg (by decide), if_neg (by decide),
    if_neg (by decide), if_neg (by decide), if_neg (by decide), if_pos rfl]

theorem configEntry_mute :
    configEntry vs "mute".toList val g = { g with mute := decide (val ≠ 0) } := by
  rw [configEntry, if_neg (by decide), if_neg (by decide), if_neg (by decide),
    if_neg (by decide), if_neg (by decide), if_neg (by decide), if_neg (by decide), if_pos rfl]

end Plain

/-- What was saved is loaded again, whatever the settings are by then. -/
theorem configLoad_configSave : configLoad vs (some (configSave vs g)) g' = normal vs g := by
  have mute : decide ((if g.mute then 1 else 0 : Word) ≠ 0) = g.mute := by
    cases g.mute <;> rfl
  have plain : (configEntries vs g).foldl (fun g e => configEntry vs e.1 e.2 g) g' =
      { normal vs g with scale := g.scale } := by
    rw [configEntries, List.foldl_append, foldl_binds]
    simp only [List.foldl_cons, List.foldl_nil, configEntry_scale, configEntry_vsync,
      configEntry_filter, configEntry_scanlines, configEntry_showFps, configEntry_rotate,
      configEntry_volume, configEntry_mute, mute]
    rfl
  rw [configLoad, foldl_configLine, plain]
  rfl

theorem flag_eq {val : Word} (bit : val = 0 ∨ val = 1) : flag val = val := by
  rcases bit with rfl | rfl <;> rfl

theorem quarter_eq {val : Word} (small : val < 4) : quarter val = val := by
  have range : val.toNat < 4 := small
  have value : val.toInt = val.toNat := by
    rw [BitVec.toInt_eq_toNat_cond, if_pos (by omega)]
  have first : val.toInt.tmod 4 = val.toInt := Int.tmod_eq_of_lt (by omega) (by omega)
  apply BitVec.eq_of_toInt_eq
  rw [toInt_quarter, first, Int.tmod_eq_emod_of_nonneg (by omega), Int.add_emod_right]
  exact Int.emod_eq_of_lt (by omega) (by omega)

theorem clampScale_eq {scale : Word} (range : 1 ≤ scale ∧ scale ≤ 8) :
    clampScale scale = scale := by
  have low : 1 ≤ scale.toNat := range.1
  have high : scale.toNat ≤ 8 := range.2
  have value : scale.toInt = scale.toNat := by
    rw [BitVec.toInt_eq_toNat_cond, if_pos (by omega)]
  have one : ¬scale.toInt < (1 : Word).toInt := by
    have : (1 : Word).toInt = 1 := by decide
    omega
  have eight : ¬(8 : Word).toInt < scale.toInt := by
    have : (8 : Word).toInt = 8 := by decide
    omega
  unfold clampScale
  simp only [BitVec.slt_iff_toInt_lt, if_neg one, if_neg eight]

/-- Settings in range come back as they were, but for the volume. -/
theorem normal_valid {g : MenuSettings ν} (valid : Valid g) :
    normal vs g = { g with volume := vs.ofPercent (vs.percent g.volume) } := by
  rw [normal, clampScale_eq valid.scale, flag_eq valid.vsync, flag_eq valid.scanlines,
    flag_eq valid.showFps, quarter_eq valid.rotate]

/-- Settings in range are saved and loaded again, whatever is loaded over, with the volume in
whole percents; and whatever file is loaded, the scale, the rotation and the flags stay in
range. -/
theorem config_persists {g : MenuSettings ν} (valid : Valid g) :
    (∀ g', configLoad vs (some (configSave vs g)) g' =
        { g with volume := vs.ofPercent (vs.percent g.volume) }) ∧
      ∀ file, Valid (configLoad vs file g) :=
  ⟨fun g' => (configLoad_configSave vs g g').trans (normal_valid vs valid),
    configLoad_valid valid⟩

/-- The settings at the start, with no binding and a volume in percent -/
theorem config_persists_defaults :
    let vs : VolumeScale Word := ⟨id, id⟩
    let g : MenuSettings Word := ⟨4, 1, 0, 0, 0, 0, 100, false, fun _ _ => -1, fun _ _ => -1⟩
    ∀ g', configLoad vs (some (configSave vs g)) g' = g := by
  intro vs g
  exact (config_persists vs (g := g)
    ⟨⟨.inr rfl, .inl rfl, .inl rfl, by decide⟩, by decide⟩).1

end RoundTrip

end MenuSettings

end LynxRecomp

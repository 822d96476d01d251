import Memtype.Spec.Vault
import Memtype.Proofs.Buttons
import Memtype.Proofs.Neighbours
import Memtype.Proofs.Pin
import Memtype.Proofs.Retries
import Memtype.Proofs.Ring

/-! The firmware does what the vault does, as long as the host does not change what is stored: one
press of the vault for each button that `UIF_Task` handles, and none for any other step. -/

namespace Memtype

open Lib Vault

def pinBytes (l : List (Fin 10)) : Bytes 4 := fun i => usiKeys (UInt8.ofNat (l.getD i 0))

/-- A PIN opens what is stored if it encrypts itself to it. -/
def hashOpens (stored : Bytes 16) (l : List (Fin 10)) : Bool :=
  (noekeonEncrypt (pinCipher (pinBytes l))).plain = stored

abbrev Safe (n : ℕ) := Vault n (Bytes 16)

def Safe.press {n : ℕ} [NeZero n] (b : Button) (v : Safe n) : Option (Safe n) :=
  Vault.press hashOpens lockHashPgm b v

def Safe.presses {n : ℕ} [NeZero n] (v : Safe n) (l : List Button) : Option (Safe n) :=
  Vault.presses hashOpens lockHashPgm v l

def itemIndex : Option Item → UInt8
  | some .user => 1
  | some .pass | none => 0

/-- The digits that have been taken, and the selected one. -/
structure Entered (done : List (Fin 10)) (digit : Fin 10) (d : Device) : Prop where
  few : done.length ≤ 3
  index : d.usi.userTextIndex.toNat = done.length
  selected : d.uif.userInputIndex = UInt8.ofNat digit
  pin : ∀ k ≤ done.length, d.usi.userPin k = usiKeys (UInt8.ofNat ((done ++ [digit]).getD k 0))

def ShowsScreen (d : Device) : Screen → Prop
  | .version => d.uif.uifState = .start
  | .entry _ done digit => d.uif.uifState = .userInput ∧ Entered done digit d
  | .name | .record => d.uif.uifState = .credentials
  | .menu item => d.uif.uifState = .options ∧ d.uif.optionsIndex = itemIndex item

def Ucp.reads (u : Ucp) : Prop :=
  u.ucpState ≠ .writting ∧ (u.ucpState = .writeEeprom → u.readEnd ≤ u.readOffset) ∧ u.usbWrite = false

/-- What the vault knows of the device but for its screen. -/
structure Keeps (L : Layout) (m : Mem) {n : ℕ} (c : ℕ → UInt16) (v : Safe n) (d : Device) : Prop where
  flash : d.flash.mem = m
  credential : d.crd.credential = record L m (c v.selected)
  retries : d.usi.pinRetries.toNat = v.retries
  stored : d.eeprom.read L.lockHash 16 = v.stored
  led : d.led.led = v.led
  reads : d.ucp.reads

structure Shows (L : Layout) (m : Mem) {n : ℕ} (c : ℕ → UInt16) (v : Safe n) (d : Device) : Prop
    extends Keeps L m c v d where
  screen : ShowsScreen d v.screen

/-- A call ends with the device showing the vault, or stays for ever with the factory PIN in the
device if there is no vault any more. -/
inductive Follows (L : Layout) (m : Mem) {n : ℕ} (c : ℕ → UInt16) (o : Outcome Device) :
    Option (Safe n) → Prop
  | shows {v d} (ho : o = .ret d) (h : Shows L m c v d) : Follows L m c o (some v)
  | erased {d} (ho : o = .spin d) (h : d.eeprom.read L.lockHash 16 = lockHashPgm) :
      Follows L m c o none

def opensTransfer (data : Bytes 8) : Prop :=
  data 0 = ucpCmdWrite ∨ data 0 = ucpCmdSetPin ∨ data 0 = ucpCmdKeyboard

instance (data : Bytes 8) : Decidable (opensTransfer data) := inferInstanceAs (Decidable (_ ∨ _ ∨ _))

/-- The host stores something, or the clock's calibration does not come to its end. -/
def Event.stores : Event → Prop
  | .write data len => len = 8 ∧ opensTransfer data
  | .usbReset meas => 254 ≤ (osccalSearch meas).1.toNat
  | _ => False

instance : DecidablePred Event.stores
  | .write data len => inferInstanceAs (Decidable (len = 8 ∧ opensTransfer data))
  | .usbReset meas => inferInstanceAs (Decidable (254 ≤ (osccalSearch meas).1.toNat))
  | .setup _ | .writeTask | .printUpdate | .ledTask | .schTask .. | .button _ | .background _ =>
    inferInstanceAs (Decidable False)

def Event.packet : Event → Option (Bytes 8)
  | .write data len => if len = 8 then some data else none
  | _ => none

section

variable {L : Layout} {m : Mem} {n : ℕ} {c : ℕ → UInt16} {v : Safe n} {d d' : Device} {e : Event}

/-- What the vault sees of the device. -/
def Device.visible (L : Layout) (d : Device) : Mem × Credential × Usi × Bytes 16 × LedStatus × Uif :=
  (d.flash.mem, d.crd.credential, d.usi, d.eeprom.read L.lockHash 16, d.led.led, d.uif)

theorem Shows.visible (h : Shows L m c v d) (hv : d'.visible L = d.visible L) (hr : d'.ucp.reads) :
    Shows L m c v d' := by
  obtain ⟨⟨hflash, hcred, hretries, hstored, hled, -⟩, hscreen⟩ := h
  simp only [Device.visible, Prod.mk.injEq] at hv
  obtain ⟨h1, h2, h3, h4, h5, h6⟩ := hv
  refine ⟨⟨h1.trans hflash, h2.trans hcred, by rw [h3, hretries], h4.trans hstored, h5.trans hled, hr⟩, ?_⟩
  cases hs : v.screen with
  | entry notice done digit =>
    rw [hs] at hscreen
    obtain ⟨hstate, hfew, hindex, hdigit, hpin⟩ := hscreen
    exact ⟨by rw [h6, hstate], hfew, by rw [h3, hindex], by rw [h6, hdigit], by rw [h3]; exact hpin⟩
  | version | name | record | menu item =>
    rw [hs] at hscreen
    unfold ShowsScreen
    rw [h6]
    exact hscreen

theorem PrintStep.visible (h : PrintStep d d') : d'.visible L = d.visible L := by
  unfold Device.visible
  rw [h.flash, h.credential, h.usi, h.eeprom, h.uif, show d'.led = d.led from (congrArg Device.led h.core :)]

theorem task_reads (h : d.ucp.reads) : (ucpTask L d).ucp.reads := by
  obtain ⟨h1, h2, h3⟩ := h
  unfold ucpTask
  dsimp only
  split
  · exact ⟨h1, h2, h3⟩
  · exact ⟨h1, h2, h3⟩
  · exact ⟨h1, h2, h3⟩
  · exact ⟨nofun, nofun, h3⟩
  · next h0 =>
    split_ifs
    · exact ⟨nofun, nofun, h3⟩
    · exact ⟨h1, fun h => absurd (h0.symm.trans h) nofun, h3⟩
    · exact ⟨nofun, nofun, h3⟩
  · next hw => exact absurd hw h1

theorem command_reads {data : Bytes 8} (h : d.ucp.reads) (hn : ¬opensTransfer data) :
    ∃ u, decodeCommand L data d = d.setUcp u ∧ u.reads := by
  obtain ⟨h1, h2, h3⟩ := h
  unfold decodeCommand
  dsimp only
  split_ifs with c1 c2 c3 c4 c5 c6 c7 c8 c9 c10
  · exact ⟨d.ucp, rfl, h1, h2, h3⟩
  · exact ⟨_, rfl, nofun, nofun, h3⟩
  · exact ⟨_, rfl, nofun, nofun, h3⟩
  · exact absurd (.inl c4) hn
  · exact absurd (.inl c4) hn
  · exact absurd (.inr (.inl c6)) hn
  · exact ⟨_, rfl, nofun, nofun, h3⟩
  · exact absurd (.inr (.inr c8)) hn
  · exact ⟨d.ucp, rfl, h1, h2, h3⟩
  · exact ⟨_, rfl, h1, h2, h3⟩
  · exact ⟨_, rfl, h1, h2, h3⟩

theorem decode_reads {data : Bytes 8} {len : UInt8} (h : d.ucp.reads)
    (hn : ¬(len = 8 ∧ opensTransfer data)) : ∃ u, ucpDecode L data len d = d.setUcp u ∧ u.reads := by
  have hrec : (d.setUcp { d.ucp with customReport := data }).ucp.reads := h
  unfold ucpDecode
  dsimp only
  split_ifs with hlen
  · exact ⟨_, rfl, h⟩
  · have hn' : ¬opensTransfer data := fun ho => hn ⟨not_not.mp hlen, ho⟩
    split
    · exact ⟨_, rfl, h⟩
    · next h0 => exact absurd h0 h.1
    · next h0 => exact ⟨_, if_neg (UInt16.not_lt.mpr (h.2.1 h0)), nofun, nofun, h.2.2⟩
    · exact command_reads hrec hn'
    · exact command_reads hrec hn'
    · exact command_reads hrec hn'

/-- The calibration comes to its end and writes its own byte. -/
theorem osccalStart_ret {meas : Measure} (h : (osccalSearch meas).1.toNat < 254) (d : Device) :
    ∃ v, osccalStart L meas d =
      .ret { d with osccal := v, eeprom := d.eeprom.write L.osccalEep 1 fun _ => v } := by
  have hends : ∃ v, osccalNeighbours meas (osccalSearch meas).1 257 ((osccalSearch meas).1 - 1)
      (osccalSearch meas).2.2 (osccalSearch meas).2.1 (osccalSearch meas).1 = some v := by
    generalize (osccalSearch meas).1 = t at h
    rcases Nat.eq_zero_or_pos t.toNat with h0 | hpos
    · -- the loop begins at 255 and is over at once
      obtain rfl : t = 0 := UInt8.toNat_inj.mp h0
      exact ⟨0, if_neg (by decide)⟩
    · have hle : 1 ≤ t := UInt8.le_iff_toNat_le.mpr hpos
      have hstart : (t - 1).toNat + 3 = t.toNat + 2 := by
        rw [UInt8.toNat_sub_of_le _ _ hle, UInt8.toNat_one]
        omega
      obtain ⟨v, us, hlog, -⟩ := neighboursLog_values meas (Nat.le_of_lt_succ h)
        (osccalSearch meas).2.2 (t - 1) t (osccalSearch meas).2.1 hstart (by decide : 3 < 257)
      exact ⟨v, by rw [← neighboursLog_fst, hlog]; rfl⟩
  obtain ⟨v, hv⟩ := hends
  refine ⟨v, ?_⟩
  unfold osccalStart
  dsimp only
  rw [hv]

theorem osccal_stored (L : Layout) (m : Mem) (v : UInt8) :
    (m.write L.osccalEep 1 fun _ => v).read L.lockHash 16 = m.read L.lockHash 16 := by
  refine Mem.read_write_out _ _ _ _ fun i hi => ?_
  have hl := L.lockHash_fit
  have ho := L.hash_osccal
  have hlt := L.osccalEep.toNat_lt
  unfold eepromSize at hl
  rw [Mem.toNat_sub, UInt16.toNat_add, UInt16.toNat_ofNat']
  omega

theorem task_eeprom (h : d.ucp.ucpState = .writeEeprom) : ucpTask L d = d := by
  unfold ucpTask
  dsimp only
  rw [h]

/-- A step that handles no button shows nothing, and only a packet moves a transfer to EEPROM. -/
theorem quiet_step (hs : ¬e.stores) (hb : e.handled d = none) (hw : d.ucp.usbWrite = false)
    (hp : d.ucp.reads ∨ e.packet = none) : ∃ d', step L d e = .ret d' ∧ d'.visible L = d.visible L ∧
      (d.ucp.reads → d'.ucp.reads) ∧ (d.ucp.ucpState = .writeEeprom → e.packet = none →
        d'.ucp.eepromPart = d.ucp.eepromPart ∧ d'.ucp.usbWrite = false) := by
  cases e with
  | setup rq =>
    by_cases hr : rq.asksReport = true
    · obtain ⟨u, hu⟩ := task_core L d
      refine ⟨_, congrArg Outcome.ret (setup_report L hr), by rw [hu]; rfl, task_reads, fun h0 _ => ?_⟩
      rw [task_eeprom h0]
      exact ⟨rfl, hw⟩
    · obtain ⟨u, l, hu, -⟩ := setup_other L d hr
      exact ⟨_, congrArg Outcome.ret hu, rfl, id, fun _ _ => ⟨rfl, hw⟩⟩
  | write data len =>
    by_cases hlen : len = 8
    · have hpacket : (Event.write data len).packet ≠ none := by simp [Event.packet, hlen]
      obtain ⟨u, hu, hr⟩ := decode_reads (hp.resolve_right hpacket) hs
      exact ⟨_, congrArg Outcome.ret hu, rfl, fun _ => hr, fun _ h => absurd h hpacket⟩
    · exact ⟨_, congrArg Outcome.ret (decode_size L data d hlen), rfl, id, fun _ _ => ⟨rfl, hw⟩⟩
  | writeTask => exact ⟨d, if_neg (Bool.eq_false_iff.mp hw), rfl, id, fun _ _ => ⟨rfl, hw⟩⟩
  | printUpdate =>
    have hp := printStep_update L d
    exact ⟨_, rfl, hp.visible, fun h => hp.ucp ▸ h, fun _ _ => ⟨congrArg _ hp.ucp, hp.ucp ▸ hw⟩⟩
  | ledTask =>
    refine ⟨_, rfl, ?_⟩
    unfold ledTask
    dsimp only
    split_ifs
    · refine ⟨?_, id, fun _ _ => ⟨rfl, hw⟩⟩
      cases hl : d.led.led <;> simp [Device.visible, hl]
    · exact ⟨rfl, id, fun _ _ => ⟨rfl, hw⟩⟩
  | schTask timer adc =>
    obtain ⟨u, s, a, hu⟩ := schTask_idle L hb
    exact ⟨_, hu, rfl, id, fun _ _ => ⟨rfl, hw⟩⟩
  | button b =>
    obtain ⟨u, hu⟩ := button_idle L hb
    exact ⟨_, hu, rfl, id, fun _ _ => ⟨rfl, hw⟩⟩
  | usbReset meas =>
    obtain ⟨v, hv⟩ := osccalStart_ret (L := L) (Nat.not_le.mp hs) d
    refine ⟨_, hv, ?_, id, fun _ _ => ⟨rfl, hw⟩⟩
    exact congrArg (fun r => (d.flash.mem, d.crd.credential, d.usi, r, d.led.led, d.uif))
      (osccal_stored L d.eeprom v)
  | background ram => exact ⟨_, rfl, rfl, id, fun _ _ => ⟨rfl, hw⟩⟩

/-- A step that handles no button shows nothing new. -/
theorem Shows.quiet (h : Shows L m c v d) (hs : ¬e.stores) (hb : e.handled d = none) :
    ∃ d', step L d e = .ret d' ∧ Shows L m c v d' := by
  obtain ⟨d', ho, hv, hr, -⟩ := quiet_step hs hb h.reads.2.2 (.inl h.reads)
  exact ⟨d', ho, h.visible hv (hr h.reads)⟩

theorem getD_done (done : List (Fin 10)) (digit : Fin 10) (k : ℕ) (hk : k ≤ done.length) :
    (done ++ [digit]).getD k 0 = if k = done.length then digit else done.getD k 0 := by
  split_ifs with h
  · subst h
    simp
  · exact List.getD_append _ _ _ _ (Nat.lt_of_le_of_ne hk h)

theorem entered_print {done : List (Fin 10)} {digit : Fin 10} (hfew : done.length ≤ 3)
    (hindex : d.usi.userTextIndex.toNat = done.length)
    (hselected : d.uif.userInputIndex = UInt8.ofNat digit)
    (hpin : ∀ k < done.length, d.usi.userPin k = usiKeys (UInt8.ofNat (done.getD k 0))) :
    Entered done digit (usiPrint L d) := by
  refine ⟨hfew, hindex, hselected, fun k hk => ?_⟩
  have hupdate : (usiPrint L d).usi.userPin =
      Function.update d.usi.userPin d.usi.userTextIndex.toNat (usiKeys d.uif.userInputIndex) := rfl
  rw [hupdate, hindex, hselected, getD_done _ _ _ hk]
  split_ifs with h
  · rw [h, Function.update_self]
  · rw [Function.update_of_ne h]
    exact hpin k (Nat.lt_of_le_of_ne hk h)

theorem Shows.deleted (h : Shows L m c v d) : Shows L m c v (printDeleteStr d) := h.visible rfl h.reads

theorem Keeps.init (h : Keeps L m c v d) : Shows L m c v.begin (usiInit L
    { d with uif := { d.uif with uifState := .userInput } }) := by
  refine ⟨⟨h.flash, h.credential, h.retries, h.stored, rfl, nofun, nofun, h.reads.2.2⟩, rfl, ?_⟩
  have hentered : Entered [] 0 (usiPrint L { d with
      uif := { d.uif with uifState := .userInput, userInputIndex := 0 },
      usi := { d.usi with userTextIndex := 0, userText := copyPinStr d.usi.userText } }) := by
    refine entered_print (Nat.zero_le 3) rfl rfl fun k hk => ?_
    exact absurd hk (Nat.not_lt_zero k)
  obtain ⟨hfew, hindex, hselected, hpin⟩ := hentered
  exact ⟨hfew, hindex, hselected, hpin⟩

/-- A digit is shown. -/
theorem Keeps.digit (h : Keeps L m c v d) {done : List (Fin 10)} {digit : Fin 10}
    (hs : d.uif.uifState = .userInput) (he : Entered done digit (usiPrint L d)) :
    Shows L m c { v with screen := .entry none done digit } (usiPrint L d) :=
  ⟨⟨h.flash, h.credential, h.retries, h.stored, h.led, h.reads⟩, hs, he⟩

/-- The digits that a turn leads to. -/
theorem turn_digit (digit : Fin 10) : uifIncrement (UInt8.ofNat digit) 10 = UInt8.ofNat (digit + 1 : Fin 10) ∧
    uifDecrement (UInt8.ofNat digit) 10 = UInt8.ofNat (digit - 1 : Fin 10) := by
  revert digit
  decide

theorem Keeps.opened (h : Keeps L m c v d) : Shows L m c v.opened (crdFsmStart d) :=
  ⟨⟨h.flash, h.credential, h.retries, h.stored, rfl, nofun, nofun, h.reads.2.2⟩, rfl⟩

/-- The end of a check that failed. -/
theorem usiFailed_entered (d : Device) : Entered [] 0 (usiFailed L d) := by
  have hpin : (usiFailed L d).usi.userPin = Function.update d.usi.userPin 0 0x30 := by
    unfold usiFailed
    split_ifs <;> rfl
  refine ⟨Nat.zero_le 3, rfl, rfl, fun k hk => ?_⟩
  obtain rfl : k = 0 := Nat.le_zero.mp hk
  rw [hpin, Function.update_self]
  rfl

theorem Keeps.refused (h : Keeps L m c v d) (hs : d.uif.uifState = .userInput) :
    Shows L m c (if 0 < v.retries then
        { v with screen := .entry (some .wrong) [] 0, retries := v.retries - 1 }
      else { v with
        screen := .entry (some .reset) [] 0, retries := forgiven, stored := lockHashPgm })
      (usiFailed L d) := by
  have hentered := usiFailed_entered (L := L) d
  have hstate : (usiFailed L d).uif.uifState = .userInput := by
    unfold usiFailed
    split_ifs
    · exact hs
    · exact hs
  have hpos : d.usi.pinRetries > 0 ↔ 0 < v.retries := by
    rw [← h.retries]
    exact UInt8.lt_iff_toNat_lt
  split_ifs with hr
  · refine ⟨⟨?_, ?_, ?_, ?_, ?_, ?_⟩, hstate, hentered⟩
    all_goals
      unfold usiFailed
      rw [if_pos (hpos.mpr hr)]
    · exact h.flash
    · exact h.credential
    · change (d.usi.pinRetries - 1).toNat = v.retries - 1
      have hge : 1 ≤ d.usi.pinRetries := by
        rw [UInt8.le_iff_toNat_le, h.retries]
        exact hr
      rw [UInt8.toNat_sub_of_le _ _ hge, h.retries]
      rfl
    · exact h.stored
    · exact h.led
    · exact h.reads
  · refine ⟨⟨?_, ?_, ?_, ?_, ?_, ?_⟩, hstate, hentered⟩
    all_goals
      unfold usiFailed
      rw [if_neg fun h0 => hr (hpos.mp h0)]
    · exact h.flash
    · exact h.credential
    · rfl
    · exact hash_reset L d
    · exact h.led
    · exact h.reads

/-- The PIN that is checked. -/
theorem Entered.pin_eq {done : List (Fin 10)} {digit : Fin 10} (h : Entered done digit d)
    (hlen : done.length = 3) : d.pin = pinBytes (done ++ [digit]) := by
  funext i
  exact h.pin i (by omega)

theorem usiKeys_nine (a : Fin 10) : usiKeys (UInt8.ofNat a) = 0x39 ↔ a = 9 := by
  revert a
  decide

theorem pinBytes_eraser {l : List (Fin 10)} (hlen : l.length = 4) : pinBytes l = erasePin ↔ l = eraser := by
  constructor
  · intro h
    refine List.ext_getElem hlen fun k hk hk' => ?_
    have hbyte := congrFun h ⟨k, by omega⟩
    unfold pinBytes erasePin at hbyte
    rw [usiKeys_nine, List.getD_eq_getElem _ _ hk] at hbyte
    rw [hbyte]
    have hall : ∀ i : Fin 4, eraser[i] = 9 := by decide
    exact (hall ⟨k, by omega⟩).symm
  · rintro rfl
    exact (by decide : pinBytes eraser = erasePin)

theorem Entered.before {done : List (Fin 10)} {digit : Fin 10} (h : Entered done digit d) {k : ℕ}
    (hk : k < done.length) : d.usi.userPin k = usiKeys (UInt8.ofNat (done.getD k 0)) := by
  rw [h.pin k hk.le, getD_done _ _ _ hk.le, if_neg hk.ne]

/-- UP or DOWN while the PIN is entered. -/
theorem Keeps.turned (h : Keeps L m c v d) (hstate : d.uif.uifState = .userInput)
    {done : List (Fin 10)} {digit digit' : Fin 10} (he : Entered done digit d) {i : UInt8}
    (hi : i = UInt8.ofNat digit') : Shows L m c { v with screen := .entry none done digit' }
      (usiPrint L { d with uif := { d.uif with userInputIndex := i } }) := by
  have hk : Keeps L m c v { d with uif := { d.uif with userInputIndex := i } } :=
    ⟨h.flash, h.credential, h.retries, h.stored, h.led, h.reads⟩
  exact hk.digit hstate (entered_print he.few he.index hi fun k hk => he.before hk)

/-- RIGHT before the last digit. -/
theorem Keeps.accepted (h : Keeps L m c v d) (hstate : d.uif.uifState = .userInput)
    {done : List (Fin 10)} {digit : Fin 10} (he : Entered done digit d) (hlt : done.length < 3) :
    Shows L m c { v with screen := .entry none (done ++ [digit]) digit } (usiAccept L d) := by
  have hindex : (d.usi.userTextIndex + 1).toNat = (done ++ [digit]).length := by
    rw [toNat_succ8 (by rw [he.index]; omega), he.index, List.length_append]
    rfl
  have hk : Keeps L m c v { d with usi := { d.usi with
      userText := Function.update d.usi.userText (pinStrLen + d.usi.userTextIndex.toNat) 0x2A,
      userTextIndex := d.usi.userTextIndex + 1 } } :=
    ⟨h.flash, h.credential, h.retries, h.stored, h.led, h.reads⟩
  refine hk.digit hstate (entered_print ?_ hindex he.selected fun k hk => ?_)
  · rw [List.length_append]
    exact hlt
  · rw [List.length_append] at hk
    exact he.pin k (Nat.lt_succ_iff.mp hk)

/-- RIGHT at the last digit. -/
theorem Shows.checked (h : Shows L m c v d) (hstate : d.uif.uifState = .userInput)
    {done : List (Fin 10)} {digit : Fin 10} (he : Entered done digit d) (hlen : done.length = 3) :
    Follows L m c (usiFsm L .right d) (v.check hashOpens lockHashPgm (done ++ [digit])) := by
  have hindex : d.usi.userTextIndex = 3 := by
    apply UInt8.toNat_inj.mp
    rw [he.index, hlen]
    rfl
  have hlen4 : (done ++ [digit]).length = 4 := by simp [hlen]
  have hopens : hashOpens v.stored (done ++ [digit]) = pinMatches L d.eeprom (pinBytes (done ++ [digit])) := by
    unfold hashOpens pinMatches
    rw [h.stored]
  have hkeeps (ok : Bool) : Keeps L m c v (usiChecked L ok (printDeleteStr d)) :=
    ⟨h.flash, h.credential, h.retries, h.stored, h.led, h.reads⟩
  rw [usiFsm_checks L hindex, he.pin_eq hlen]
  unfold check
  by_cases herase : done ++ [digit] = eraser
  · rw [if_pos herase, if_pos ((pinBytes_eraser hlen4).mpr herase)]
    exact .erased rfl (hash_reset L _)
  · rw [if_neg herase, if_neg fun h => herase ((pinBytes_eraser hlen4).mp h), hopens]
    cases hm : pinMatches L d.eeprom (pinBytes (done ++ [digit])) with
    | true => exact .shows rfl (hkeeps true).opened
    | false =>
      have hrefused := (hkeeps false).refused hstate
      rw [if_neg Bool.false_ne_true, if_neg Bool.false_ne_true]
      split_ifs at hrefused ⊢
      · exact .shows rfl hrefused
      · exact .shows rfl hrefused

/-- A button while the PIN is entered. -/
theorem Shows.enter (h : Shows L m c v d) {notice : Option Notice} {done : List (Fin 10)}
    {digit : Fin 10} (hs : v.screen = .entry notice done digit) (b : Button) :
    Follows L m c (usiFsm L b d) (v.enter hashOpens lockHashPgm b done digit) := by
  have hscreen := h.screen
  rw [hs] at hscreen
  obtain ⟨hstate, he⟩ := hscreen
  have hk := h.deleted.toKeeps
  have he' : Entered done digit (printDeleteStr d) := ⟨he.few, he.index, he.selected, he.pin⟩
  cases b with
  | notPressed => exact .shows rfl h
  | left =>
    have hsame : { printDeleteStr d with uif := { (printDeleteStr d).uif with uifState := .userInput } } =
        printDeleteStr d := by
      rw [← hstate]
      rfl
    have hinit := hk.init
    rw [hsame] at hinit
    exact .shows rfl hinit
  | up => exact .shows rfl (hk.turned hstate he' (by rw [he'.selected]; exact (turn_digit digit).1))
  | down => exact .shows rfl (hk.turned hstate he' (by rw [he'.selected]; exact (turn_digit digit).2))
  | right =>
    unfold Vault.enter
    dsimp only
    split_ifs with hlt
    · have hindex : ¬d.usi.userTextIndex = 3 := by
        intro h3
        have := he.index
        rw [h3] at this
        exact absurd this.symm hlt.ne
      exact .shows (if_neg hindex) (hk.accepted hstate he' hlt)
    · exact h.checked hstate he (Nat.le_antisymm he.few (Nat.not_lt.mp hlt))

theorem PrintStep.keeps (hp : PrintStep d d') (h : Keeps L m c v d) : Keeps L m c v d' := by
  have hled : d'.led = d.led := (congrArg Device.led hp.core :)
  refine ⟨?_, ?_, ?_, ?_, ?_, ?_⟩
  · rw [hp.flash, h.flash]
  · rw [hp.credential, h.credential]
  · rw [hp.usi, h.retries]
  · rw [hp.eeprom, h.stored]
  · rw [hled, h.led]
  · rw [hp.ucp]
    exact h.reads

theorem down_val [NeZero n] (k : Fin n) : ((k + 1 : Fin n) : ℕ) = (k + 1) % n := by
  rw [Fin.val_add, Fin.val_one', Nat.add_mod_mod]

theorem up_val [NeZero n] (k : Fin n) : ((k - 1 : Fin n) : ℕ) = (k + n - 1) % n := by
  rw [Fin.val_sub, Fin.val_one']
  rcases Nat.lt_or_ge 1 n with h1 | h1
  · rw [Nat.mod_eq_of_lt h1]
    congr 1
    omega
  · have hn : n = 1 := Nat.le_antisymm h1 (NeZero.pos n)
    subst hn
    rw [Nat.mod_one, Nat.mod_one]

/-- A button among the credentials. -/
theorem Shows.browse [NeZero n] (h : Shows L m c v d) (hr : Ring L m n c)
    (hs : d.uif.uifState = .credentials) {b : Button} (hb : b ≠ .notPressed) :
    ∃ d', crdFsm L b d = .ret d' ∧ Shows L m c (v.browse b) d' := by
  have hk := h.deleted.toKeeps
  cases b with
  | notPressed => exact absurd rfl hb
  | left =>
    refine ⟨_, rfl, ⟨?_, rfl, rfl⟩⟩
    exact ⟨hk.flash, hk.credential, hk.retries, hk.stored, rfl, hk.reads⟩
  | up =>
    have hprev := hr.previous hk.flash v.selected.isLt hk.credential
    refine ⟨_, hprev, ⟨hk.flash, ?_, hk.retries, hk.stored, hk.led, hk.reads⟩, hs⟩
    rw [← up_val, ← hk.flash]
    rfl
  | down =>
    have hnext := hr.next hk.flash v.selected.isLt hk.credential
    refine ⟨_, hnext, ⟨hk.flash, ?_, hk.retries, hk.stored, hk.led, hk.reads⟩, hs⟩
    rw [← down_val, ← hk.flash]
    rfl
  | right =>
    have hp := printStep_printDetail L crdUser crdEnd (printDeleteStr d)
    have hk' := hp.keeps hk
    refine ⟨_, rfl, ⟨hk'.flash, hk'.credential, hk'.retries, hk'.stored, hk'.led, hk'.reads⟩, ?_⟩
    exact (congrArg Uif.uifState hp.uif).trans hs

/-- An item of the menu is typed. -/
theorem Keeps.item (h : Keeps L m c v d) (hs : d.uif.uifState = .options) (i : Item)
    (hi : d.uif.optionsIndex = itemIndex (some i)) :
    Shows L m c { v with screen := .menu (some i), led := i.led } (optApply L d) := by
  have hitem (start stop : UInt8) (l : LedStatus) (hl : l = i.led) :
      Shows L m c { v with screen := .menu (some i), led := i.led }
        { crdPrintDetail L start stop (printDeleteStr d) with
          led := { (crdPrintDetail L start stop (printDeleteStr d)).led with led := l } } := by
    have hp := (printStep_deleteStr d).trans (printStep_printDetail L start stop (printDeleteStr d))
    have hk := hp.keeps h
    refine ⟨⟨hk.flash, hk.credential, hk.retries, hk.stored, hl, hk.reads⟩, ?_, ?_⟩
    · exact (congrArg Uif.uifState hp.uif).trans hs
    · exact (congrArg Uif.optionsIndex hp.uif).trans hi
  unfold optApply
  cases i with
  | user =>
    rw [if_neg (by rw [hi]; decide)]
    exact hitem _ _ _ rfl
  | pass =>
    rw [if_pos (show d.uif.optionsIndex = 0 from hi)]
    exact hitem _ _ _ rfl

theorem item_after (i : Option Item) :
    uifIncrement (itemIndex i) maxOptSize = itemIndex (some (Item.after i)) ∧
      uifDecrement (itemIndex i) maxOptSize = itemIndex (some (Item.after i)) := by
  match i with
  | none | some .user | some .pass => exact ⟨rfl, rfl⟩

/-- A button in the menu. -/
theorem Shows.choose (h : Shows L m c v d) {item : Option Item} (hs : v.screen = .menu item)
    {b : Button} (hb : b ≠ .notPressed) : Shows L m c (v.choose b item) (optFsm L b d) := by
  have hscreen := h.screen
  rw [hs] at hscreen
  obtain ⟨hstate, hindex⟩ := hscreen
  have hk := h.deleted.toKeeps
  have hturn (d₁ : Device) (h₁ : Keeps L m c v d₁) (hs₁ : d₁.uif.uifState = .options) (i : UInt8)
      (hi : i = itemIndex (some (Item.after item))) :
      Shows L m c { v with screen := .menu (some (Item.after item)), led := (Item.after item).led }
        (optApply L { d₁ with uif := { d₁.uif with optionsIndex := i } }) := by
    have hk₁ : Keeps L m c v { d₁ with uif := { d₁.uif with optionsIndex := i } } :=
      ⟨h₁.flash, h₁.credential, h₁.retries, h₁.stored, h₁.led, h₁.reads⟩
    exact hk₁.item hs₁ _ hi
  cases b with
  | notPressed => exact absurd rfl hb
  | left => exact ⟨⟨hk.flash, hk.credential, hk.retries, hk.stored, rfl, hk.reads⟩, rfl⟩
  | right => exact h.toKeeps.opened
  | up =>
    refine hturn _ hk hstate _ ?_
    exact (congrArg (uifIncrement · maxOptSize) hindex).trans (item_after item).1
  | down =>
    refine hturn _ h.toKeeps hstate _ ?_
    exact (congrArg (uifDecrement · maxOptSize) hindex).trans (item_after item).2

theorem Shows.task [NeZero n] (h : Shows L m c v d) (hr : Ring L m n c)
    (hc : d.uib.buttonChanged = true) (hb : d.uib.buttonPressed ≠ .notPressed) :
    Follows L m c (uifTask L d) (v.press d.uib.buttonPressed) := by
  have hscreen := h.screen
  unfold Safe.press Vault.press uifTask
  rw [if_pos ⟨hc, hb⟩]
  cases hs : v.screen with
  | version =>
    rw [hs] at hscreen
    rw [show d.uif.uifState = .start from hscreen]
    exact .shows rfl h.deleted.toKeeps.init
  | entry notice done digit =>
    rw [hs] at hscreen
    rw [hscreen.1]
    exact h.enter hs _
  | name | record =>
    rw [hs] at hscreen
    rw [show d.uif.uifState = .credentials from hscreen]
    obtain ⟨d', ho, h'⟩ := h.browse hr hscreen hb
    exact .shows ho h'
  | menu item =>
    rw [hs] at hscreen
    rw [hscreen.1]
    exact .shows rfl (h.choose hs hb)

/-- A step that handles a button is a press. -/
theorem Shows.press [NeZero n] (h : Shows L m c v d) (hr : Ring L m n c) {b : Button}
    (he : e.handled d = some b) :
    Follows L m c (step L d e) (v.press b) := by
  obtain ⟨u, s, a, hc, hu, hb, hstep⟩ := step_handled L he
  have hd : Shows L m c v { d with uib := u, sch := s, adcValue := a } := h.visible rfl h.reads
  rw [hstep, ← hu]
  exact hd.task hr hc (hu ▸ hb)

theorem Shows.run [NeZero n] (h : Shows L m c v d) (hr : Ring L m n c) {evs : List Event}
    (hs : ∀ e ∈ evs, ¬e.stores) :
    Follows L m c (Lib.run (step L) (.ret d) evs) (v.presses (actions L (.ret d) evs)) := by
  induction evs generalizing d v with
  | nil => exact .shows rfl h
  | cons e evs ih =>
    have hrest := fun e he => hs e (List.mem_cons_of_mem _ he)
    rw [run_cons, Outcome.bind_ret]
    unfold actions at ih ⊢
    rw [collect]
    cases hb : e.handled d with
    | none =>
      obtain ⟨d', hstep, h'⟩ := h.quiet (hs e List.mem_cons_self) hb
      rw [hstep]
      exact ih h' hrest
    | some b =>
      have hpress := h.press hr hb
      unfold Safe.presses Vault.presses
      rw [Option.toList_some, List.singleton_append, List.foldlM_cons,
        show Vault.press hashOpens lockHashPgm b v = v.press b from rfl]
      generalize v.press b = r at hpress
      cases hpress with
      | shows hstep h' =>
        rw [hstep]
        exact ih h' hrest
      | erased hstep hstored =>
        rw [hstep]
        exact .erased (run_spin _ evs) hstored

def Safe.start [NeZero n] (stored : Bytes 16) : Safe n := { selected := 0, stored := stored }

theorem powerOn_shows [NeZero n] (hr : Ring L m n c) (eeprom ram : Mem) :
    ∃ d, powerOn L m eeprom ram = .ret d ∧
      Shows L m c (Safe.start (n := n) (eeprom.read L.lockHash 16)) d := by
  have hload := load_select (L := L)
    (d := uifInit L { flash := { mem := m }, eeprom := eeprom, ram := ram }) hr.nul 0
  unfold powerOn crdInit
  dsimp only
  rw [hload]
  refine ⟨_, rfl, ?_⟩
  have hzero : c ((Safe.start (n := n) (eeprom.read L.lockHash 16)).selected : ℕ) = 0 := hr.first
  unfold osccalInit
  dsimp only
  split_ifs
  · exact ⟨⟨rfl, by rw [hzero]; rfl, rfl, rfl, rfl, nofun, nofun, rfl⟩, rfl⟩
  · exact ⟨⟨rfl, by rw [hzero]; rfl, rfl, rfl, rfl, nofun, nofun, rfl⟩, rfl⟩

end

/-- From power-on, in any order of events with which the host stores nothing, the device shows what
the vault shows after the buttons that `UIF_Task` has handled; and once the vault is gone it stays
for ever, with the factory PIN. -/
theorem vault_refined (L : Layout) (flash eeprom ram : Mem) {n : ℕ} [NeZero n] {c : ℕ → UInt16}
    (hr : Ring L flash n c) (evs : List Event) (hs : ∀ e ∈ evs, ¬e.stores) :
    Follows L flash c (run (step L) (powerOn L flash eeprom ram) evs)
      ((Safe.start (n := n) (eeprom.read L.lockHash 16)).presses
        (actions L (powerOn L flash eeprom ram) evs)) := by
  obtain ⟨d, hd, h⟩ := powerOn_shows hr eeprom ram
  rw [hd]
  exact h.run hr hs

def pinAndDown : List Event := List.replicate 5 (.button .right) ++ [.button .down, .getReport 2]

theorem vault_refined_pinAndDown : ∃ v d, run (step sampleLayout)
      (powerOn sampleLayout twoRecords (factoryEeprom sampleLayout) fun _ => 0) pinAndDown = .ret d ∧
    Shows sampleLayout twoRecords (n := 2) (fun i => if i = 0 then 0 else 8) v d ∧
    v.screen = .name ∧ v.selected = 1 := by
  have hstores : ∀ e ∈ pinAndDown, ¬e.stores := by decide
  have h := vault_refined sampleLayout twoRecords (factoryEeprom sampleLayout) (fun _ => 0)
    ring_twoRecords pinAndDown hstores
  have hactions : actions sampleLayout (powerOn sampleLayout twoRecords (factoryEeprom sampleLayout)
      fun _ => 0) pinAndDown = List.replicate 5 .right ++ [.down] := by decide +kernel
  have hv : ((Safe.start (n := 2) ((factoryEeprom sampleLayout).read sampleLayout.lockHash 16)).presses
      (List.replicate 5 .right ++ [.down])).map (fun v => (v.screen, v.selected)) = some (.name, 1) := by
    decide +kernel
  rw [hactions] at h
  generalize (Safe.start (n := 2) _).presses _ = r at h hv
  cases h with
  | shows ho hshows =>
    rw [Option.map_some, Option.some_inj, Prod.mk.injEq] at hv
    exact ⟨_, _, ho, hshows, hv.1, hv.2⟩
  | erased ho hstored => exact absurd hv nofun

end Memtype

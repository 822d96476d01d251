import Memtype.Lib.Project
import Memtype.Proofs.Vault

/-! A new PIN from the host: after the packets of SET_PIN the device is the locked vault with the
new hash, and the buttons that enter a PIN check it against that one. -/

namespace Memtype

open Lib Vault

namespace Vault

def dial (a b : Fin 10) : List Button := List.replicate (b - a).val .up ++ [.right]

def typed : Fin 10 → List (Fin 10) → List Button
  | _, [] => []
  | a, b :: l => dial a b ++ typed b l

/-- The buttons that enter a PIN from the version on. -/
def entering (l : List (Fin 10)) : List Button := .right :: typed 0 l

section

variable {n : ℕ} {H : Type} {opens : H → List (Fin 10) → Bool} {factory : H}

theorem check_opens {v : Vault n H} {l : List (Fin 10)} (hl : l ≠ eraser) (ho : opens v.stored l = true) :
    check opens factory l v = some v.opened := by
  rw [check, if_neg hl, if_pos ho]

variable [NeZero n]

theorem presses_cons (v : Vault n H) (b : Button) (l : List Button) :
    presses opens factory v (b :: l) =
      (press opens factory b v).bind fun v => presses opens factory v l := List.foldlM_cons

theorem presses_append (v : Vault n H) (l l' : List Button) :
    presses opens factory v (l ++ l') =
      (presses opens factory v l).bind fun v => presses opens factory v l' := List.foldlM_append

theorem presses_up (v : Vault n H) (done : List (Fin 10)) (a : Fin 10) (k : ℕ) :
    presses opens factory { v with screen := .entry none done a } (List.replicate k .up) =
      some { v with screen := .entry none done ((· + 1)^[k] a) } := by
  induction k generalizing a with
  | zero => rfl
  | succ k ih =>
    rw [List.replicate_succ, presses_cons, Function.iterate_succ_apply]
    exact ih (a + 1)

theorem dial_turns : ∀ a b : Fin 10, (· + 1)^[(b - a).val] a = b := by decide

/-- The rest of a PIN, digit by digit. -/
theorem presses_typed (v : Vault n H) {l done : List (Fin 10)} (a : Fin 10) (hl : l ≠ [])
    (hlen : done.length + l.length = 4) :
    presses opens factory { v with screen := .entry none done a } (typed a l) =
      check opens factory (done ++ l) v := by
  induction l generalizing done a with
  | nil => exact absurd rfl hl
  | cons b l ih =>
    rw [typed, dial, List.append_assoc, presses_append, presses_up, dial_turns, Option.bind_some,
      List.singleton_append, presses_cons]
    rw [List.length_cons] at hlen
    have hpress : press opens factory .right { v with screen := .entry none done b } =
        if done.length < 3 then some { v with screen := .entry none (done ++ [b]) b }
        else check opens factory (done ++ [b]) v := rfl
    cases l with
    | nil =>
      rw [hpress, if_neg (by simp at hlen; omega)]
      exact Option.bind_fun_some _
    | cons b' l =>
      rw [hpress, if_pos (by simp at hlen; omega), Option.bind_some,
        ih b (List.cons_ne_nil _ _) (by simp at hlen ⊢; omega), List.append_assoc]
      rfl

theorem presses_entering {v : Vault n H} (hs : v.screen = .version) {l : List (Fin 10)}
    (hlen : l.length = 4) :
    presses opens factory v (entering l) = check opens factory l v.begin := by
  have hpress : press opens factory .right v = some v.begin := by
    unfold press
    rw [hs]
  have hl : l ≠ [] := by
    rintro rfl
    exact absurd hlen (by decide)
  rw [entering, presses_cons, hpress, Option.bind_some]
  exact presses_typed v.begin 0 hl (by rw [hlen]; rfl)

end

end Vault

/-- Between SET_PIN and its last packet, with the first one if it has come. -/
structure Storing (L : Layout) (m : Mem) {n : ℕ} (c : ℕ → UInt16) (v : Safe n) (first : Option (Bytes 8))
    (d : Device) : Prop where
  flash : d.flash.mem = m
  credential : d.crd.credential = record L m (c v.selected)
  retries : d.usi.pinRetries.toNat = v.retries
  led : d.led.led = v.led
  transfer : d.ucp.eepromPart =
    (.writeEeprom, L.lockHash + first.elim 0 fun _ => 8, L.lockHash + 16, true)
  write : d.ucp.usbWrite = false
  half : ∀ p ∈ first, ∀ i, d.eeprom.read L.lockHash 16 (Fin.castAdd 8 i) = p i

section

variable {L : Layout} {m : Mem} {n : ℕ} {c : ℕ → UInt16} {v : Safe n} {d : Device} {e : Event}
  {first : Option (Bytes 8)} {cmd p q : Bytes 8}

theorem Storing.quiet (h : Storing L m c v first d) (hs : ¬e.stores) (hb : e.handled d = none)
    (hp : e.packet = none) : ∃ d', step L d e = .ret d' ∧ Storing L m c v first d' := by
  obtain ⟨d', ho, hv, -, hkeep⟩ := quiet_step (L := L) hs hb h.write (.inr hp)
  obtain ⟨htransfer, hwrite⟩ := hkeep (congrArg Prod.fst h.transfer :) hp
  simp only [Device.visible, Prod.mk.injEq] at hv
  obtain ⟨h1, h2, h3, h4, h5, -⟩ := hv
  refine ⟨d', ho, h1.trans h.flash, h2.trans h.credential, by rw [h3, h.retries], h5.trans h.led,
    htransfer.trans h.transfer, hwrite, ?_⟩
  rw [h4]
  exact h.half

theorem Storing.run (h : Storing L m c v first d) {evs : List Event}
    (hs : ∀ e ∈ evs, ¬e.stores) (hp : ∀ e ∈ evs, e.packet = none) (ha : actions L (.ret d) evs = []) :
    ∃ d', Lib.run (step L) (.ret d) evs = .ret d' ∧ Storing L m c v first d' := by
  induction evs generalizing d with
  | nil => exact ⟨d, rfl, h⟩
  | cons e evs ih =>
    unfold actions at ih ha
    rw [collect, List.append_eq_nil_iff, Option.toList_eq_nil_iff] at ha
    obtain ⟨d', ho, h'⟩ := h.quiet (hs e List.mem_cons_self) ha.1 (hp e List.mem_cons_self)
    rw [run_cons, Outcome.bind_ret, ho]
    rw [ho] at ha
    exact ih h' (fun e he => hs e (List.mem_cons_of_mem _ he))
      (fun e he => hp e (List.mem_cons_of_mem _ he)) ha.2

/-- SET_PIN opens the transfer. -/
theorem Shows.setPin (h : Shows L m c v d) (hcmd : cmd 0 = ucpCmdSetPin)
    (hu : d.ucp.ucpState ≠ .deviceLocked ∧ d.ucp.ucpState ≠ .writeEeprom) :
    Storing L m c v none (ucpDecode L cmd 8 d) := by
  have hdecode : ucpDecode L cmd 8 d = (d.setUcp { d.ucp.received cmd with
      ucpState := .writeEeprom, readOffset := L.lockHash, readEnd := L.lockHash + 16,
      lockAfterSetPin := true }).call .setPin := by
    have hcommand : decodeCommand L cmd (d.setUcp (d.ucp.received cmd)) = (d.setUcp { d.ucp.received cmd with
        ucpState := .writeEeprom, readOffset := L.lockHash, readEnd := L.lockHash + 16,
        lockAfterSetPin := true }).call .setPin := by
      unfold decodeCommand
      dsimp only
      rw [hcmd, if_neg (by decide), if_neg (by decide), if_neg (by decide), if_pos rfl]
      rfl
    unfold ucpDecode
    rw [if_neg (by decide)]
    dsimp only
    split
    · next h0 => exact absurd h0 hu.1
    · next h0 => exact absurd h0 h.reads.1
    · next h0 => exact absurd h0 hu.2
    · exact hcommand
    · exact hcommand
    · exact hcommand
  rw [hdecode]
  refine ⟨h.flash, h.credential, h.retries, h.led, ?_, h.reads.2.2, nofun⟩
  exact congrArg (fun a => (UcpState.writeEeprom, a, L.lockHash + 16, true)) (UInt16.add_zero _).symm

theorem Storing.parts (h : Storing L m c v first d) : d.ucp.ucpState = .writeEeprom ∧
    d.ucp.readOffset = L.lockHash + (first.elim 0 fun _ => 8) ∧
    d.ucp.readEnd = L.lockHash + 16 ∧ d.ucp.lockAfterSetPin = true := by
  simpa only [Ucp.eepromPart, Prod.mk.injEq] using h.transfer

/-- A packet of the transfer is stored, and the last one locks. -/
theorem Storing.decode (h : Storing L m c v first d) (data : Bytes 8) : ucpDecode L data 8 d =
    if d.ucp.readEnd ≤ d.ucp.readOffset + 8 then
      (uifInit L (eepromStored data d)).setUcp
        { (eepromStored data d).ucp with lockAfterSetPin := false }
    else eepromStored data d := by
  obtain ⟨hstate, hoffset, hend, hlock⟩ := h.parts
  have hlt : d.ucp.readOffset < d.ucp.readEnd := by
    rw [hoffset, hend, UInt16.lt_iff_toNat_lt, toNat_lockHash_end]
    cases first with
    | none =>
      rw [Option.elim_none, UInt16.add_zero]
      omega
    | some p =>
      rw [Option.elim_some, toNat_lockHash_half]
      omega
  rw [decode_writeEeprom L data hstate]
  refine (if_pos hlt).trans ?_
  by_cases he : d.ucp.readEnd ≤ d.ucp.readOffset + 8
  · rw [if_pos he]
    exact (if_pos he).trans (if_pos hlock)
  · rw [if_neg he]
    exact if_neg he

theorem Storing.firstHalf (h : Storing L m c v none d) (p : Bytes 8) :
    Storing L m c v (some p) (ucpDecode L p 8 d) := by
  obtain ⟨hstate, hoffset, hend, hlock⟩ := h.parts
  rw [Option.elim_none, UInt16.add_zero] at hoffset
  have hmore : ¬d.ucp.readEnd ≤ d.ucp.readOffset + 8 := by
    rw [hoffset, hend, UInt16.le_iff_toNat_le, toNat_lockHash_end, toNat_lockHash_half]
    omega
  rw [h.decode, if_neg hmore]
  refine ⟨h.flash, h.credential, h.retries, h.led, ?_, h.write, ?_⟩
  · rw [← hend, ← hoffset, ← hlock, ← hstate]
    rfl
  · rintro _ ⟨⟩ i
    have heep : (eepromStored p d).eeprom =
        d.eeprom.write L.lockHash 8 fun i => p (Fin.ofNat 8 i) := by
      rw [← hoffset]
      rfl
    rw [heep]
    exact congrFun (read_first L p d.eeprom) i

theorem Storing.secondHalf (h : Storing L m c v (some p) d) (q : Bytes 8) :
    Shows L m c { v with screen := .version, stored := Fin.append p q } (ucpDecode L q 8 d) := by
  obtain ⟨hstate, hoffset, hend, hlock⟩ := h.parts
  rw [Option.elim_some] at hoffset
  have hlast : d.ucp.readEnd ≤ d.ucp.readOffset + 8 := by
    rw [hoffset, hend, UInt16.add_assoc]
    exact UInt16.le_refl _
  rw [h.decode, if_pos hlast]
  have hhalf : d.eeprom.read L.lockHash 8 = p := funext fun i => h.half p rfl i
  refine ⟨⟨h.flash, h.credential, h.retries, ?_, h.led, ?_, fun _ => hlast, h.write⟩, rfl⟩
  · have hread := read_second L p q d.eeprom hhalf
    rw [← hoffset] at hread
    exact hread
  · exact fun hw => absurd (hstate.symm.trans hw) nofun

theorem write_of_packet {data : Bytes 8} (h : e.packet = some data) : e = .write data 8 := by
  unfold Event.packet at h
  split at h
  · rw [Option.ite_none_right_eq_some, Option.some_inj] at h
    rw [h.1, h.2]
  · exact absurd h (Option.some_ne_none data).symm

/-- A run goes on up to and with the next packet of the transfer. -/
theorem Storing.next (h : Storing L m c v first d) {evs : List Event} {data : Bytes 8}
    {rest : List (Bytes 8)} (hp : evs.filterMap Event.packet = data :: rest)
    (hs : ∀ e ∈ evs, e.packet = none → ¬e.stores) (ha : actions L (.ret d) evs = []) :
    ∃ d' evs', Storing L m c v first d' ∧ evs'.filterMap Event.packet = rest ∧
      (∀ e ∈ evs', e.packet = none → ¬e.stores) ∧
      actions L (.ret (ucpDecode L data 8 d')) evs' = [] ∧
      Lib.run (step L) (.ret d) evs = Lib.run (step L) (.ret (ucpDecode L data 8 d')) evs' := by
  obtain ⟨gap, e, evs', rfl, hgap, he, hrest⟩ := List.filterMap_eq_cons_iff.mp hp
  obtain rfl := write_of_packet he
  unfold actions at ha ⊢
  rw [collect_append, List.append_eq_nil_iff] at ha
  obtain ⟨d', hrun, h'⟩ := h.run (fun e he => hs e (List.mem_append_left _ he) (hgap e he)) hgap ha.1
  refine ⟨d', evs', h', hrest, fun e he => ?_, ?_, ?_⟩
  · exact hs e (List.mem_append_right _ (List.mem_cons_of_mem _ he))
  · rw [hrun] at ha
    exact (List.append_eq_nil_iff.mp ha.2).2
  · rw [run_append, hrun]
    rfl

/-- The host changes the PIN: SET_PIN to a device that takes it, and two packets with anything
between and behind them that stores nothing and handles no button. -/
structure PinChange (L : Layout) (d : Device) (p q : Bytes 8) (evs : List Event) : Prop where
  unlocked : d.ucp.ucpState ≠ .deviceLocked
  free : d.ucp.ucpState ≠ .writeEeprom
  packets : ∃ cmd rest, evs = .write cmd 8 :: rest ∧ cmd 0 = ucpCmdSetPin ∧
    rest.filterMap Event.packet = [p, q]
  quiet : ∀ e ∈ evs, e.packet = none → ¬e.stores
  idle : actions L (.ret d) evs = []

theorem Shows.newPin [NeZero n] (h : Shows L m c v d) (hr : Ring L m n c) {evs : List Event}
    (hc : PinChange L d p q evs) : ∃ d', Lib.run (step L) (.ret d) evs = .ret d' ∧
      Shows L m c { v with screen := .version, stored := Fin.append p q } d' := by
  obtain ⟨cmd, rest, rfl, hcmd, hp⟩ := hc.packets
  have h₀ := h.setPin hcmd ⟨hc.unlocked, hc.free⟩
  have hs (e : Event) (he : e ∈ rest) : e.packet = none → ¬e.stores :=
    hc.quiet e (List.mem_cons_of_mem _ he)
  obtain ⟨d₁, evs₁, h₁, hp₁, hs₁, ha₁, hrun₁⟩ := h₀.next hp hs hc.idle
  obtain ⟨d₂, evs₂, h₂, hp₂, hs₂, ha₂, hrun₂⟩ := (h₁.firstHalf p).next hp₁ hs₁ ha₁
  have hrest := (h₂.secondHalf q).run hr fun e he =>
    hs₂ e he (List.filterMap_eq_nil_iff.mp hp₂ e he)
  rw [ha₂, ← hrun₂, ← hrun₁] at hrest
  cases hrest with
  | shows ho h' => exact ⟨_, ho, h'⟩

end

/-- Once the host has changed the PIN, a PIN that is entered is checked against the hash that was
sent, whatever was stored before. -/
theorem newPin_checked (L : Layout) (flash eeprom ram : Mem) {n : ℕ} [NeZero n] {c : ℕ → UInt16}
    (hr : Ring L flash n c) {before change after : List Event} {d : Device} {p q : Bytes 8}
    (hb : ∀ e ∈ before, ¬e.stores) (hd : run (step L) (powerOn L flash eeprom ram) before = .ret d)
    (hc : PinChange L d p q change) (ha : ∀ e ∈ after, ¬e.stores) {l : List (Fin 10)}
    (hlen : l.length = 4) (hl : actions L (run (step L) (.ret d) change) after = entering l) :
    ∃ v, (Safe.start (n := n) (eeprom.read L.lockHash 16)).presses
        (actions L (powerOn L flash eeprom ram) before) = some v ∧
      Follows L flash c (run (step L) (.ret d) (change ++ after)) (check hashOpens lockHashPgm l
        { v with screen := .version, stored := Fin.append p q }.begin) := by
  obtain ⟨d₀, hd₀, h₀⟩ := powerOn_shows hr eeprom ram
  have hbefore := h₀.run hr hb
  rw [← hd₀, hd] at hbefore
  generalize (Safe.start (n := n) _).presses _ = r at hbefore
  cases hbefore with
  | erased ho _ => exact absurd ho nofun
  | shows ho h =>
    cases ho
    obtain ⟨d₁, hd₁, h₁⟩ := h.newPin hr hc
    have hafter := h₁.run hr ha
    rw [hd₁] at hl
    rw [hl] at hafter
    refine ⟨_, rfl, ?_⟩
    rw [run_append, hd₁]
    unfold Safe.presses at hafter
    rwa [presses_entering rfl hlen] at hafter

def pinHash (l : List (Fin 10)) : Bytes 16 := (noekeonEncrypt (pinCipher (pinBytes l))).plain

/-- SET_PIN with the hash of a PIN, and a report asked for in between. -/
def changeTo (l : List (Fin 10)) : List Event :=
  [.write (Fin.cons ucpCmdSetPin fun _ => 0) 8, .write (fun i => pinHash l (Fin.castAdd 8 i)) 8,
    .getReport 2, .write (fun i => pinHash l (Fin.natAdd 8 i)) 8]

theorem pinChange_changeTo {L : Layout} {d : Device} (l : List (Fin 10))
    (h : d.ucp.ucpState = .idle) (ha : actions L (.ret d) (changeTo l) = []) :
    PinChange L d (fun i => pinHash l (Fin.castAdd 8 i)) (fun i => pinHash l (Fin.natAdd 8 i))
      (changeTo l) := by
  refine ⟨by rw [h]; exact nofun, by rw [h]; exact nofun, ⟨_, _, rfl, rfl, rfl⟩, ?_, ha⟩
  intro e he hp
  simp only [changeTo, List.mem_cons, List.not_mem_nil, or_false] at he
  obtain rfl | rfl | rfl | rfl := he
  · exact absurd hp nofun
  · exact absurd hp nofun
  · exact nofun
  · exact absurd hp nofun

def openedDevice : Outcome Device := run (step sampleLayout)
  (powerOn sampleLayout twoRecords (factoryEeprom sampleLayout) fun _ => 0)
  ((entering [0, 0, 0, 0]).map .button)

theorem hashOpens_pinHash (l : List (Fin 10)) : hashOpens (Fin.append (m := 8) (n := 8)
    (fun i => pinHash l (Fin.castAdd 8 i)) fun i => pinHash l (Fin.natAdd 8 i)) l = true := by
  rw [Fin.append_castAdd_natAdd]
  exact decide_eq_true rfl

theorem newPin_checked_1234 : ∃ v d', run (step sampleLayout) openedDevice
      (changeTo [1, 2, 3, 4] ++ (entering [1, 2, 3, 4]).map .button) = .ret d' ∧
    Shows sampleLayout twoRecords (n := 2) (fun i => if i = 0 then 0 else 8) v d' ∧
    v.screen = .name := by
  have hd : openedDevice = .ret openedDevice.state := Outcome.eq_ret_of_returns (by decide +kernel)
  have hc := pinChange_changeTo (L := sampleLayout) (d := openedDevice.state) [1, 2, 3, 4]
    (by decide +kernel) (by decide +kernel)
  have hl : actions sampleLayout (run (step sampleLayout) (.ret openedDevice.state)
      (changeTo [1, 2, 3, 4])) ((entering [1, 2, 3, 4]).map .button) = entering [1, 2, 3, 4] := by
    decide +kernel
  obtain ⟨v, hv, h⟩ := newPin_checked sampleLayout twoRecords (factoryEeprom sampleLayout) (fun _ => 0)
    ring_twoRecords (by decide) hd hc (by decide) rfl hl
  rw [check_opens] at h
  · rw [hd]
    cases h with
    | shows ho hshows => exact ⟨_, _, ho, hshows, rfl⟩
  · decide
  · exact hashOpens_pinHash [1, 2, 3, 4]

end Memtype

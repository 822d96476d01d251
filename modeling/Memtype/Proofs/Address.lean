import Memtype.Proofs.Control

/-! The address of the device. A SET_ADDRESS takes effect with the first data packet that goes out
after `usbPoll` has taken it, which is that of its status stage unless the keyboard's endpoint is
polled before. -/

namespace Memtype

open Lib

def Answer.isData : Answer → Bool
  | .handshake _ => false
  | _ => true

namespace Usbdrv

theorem received_take {u : Usbdrv} (h : u.Half) (pid b b' : UInt8) :
    (u.take pid [b, b']).received 1 = b ∧ (u.take pid [b, b']).received 2 = b' := by
  have hpos (j : ℕ) (hj : j < 11) :
      (Fin.ofNat 22 (u.usbInputBufOffset.toNat + j)).val = u.usbInputBufOffset.toNat + j := by
    rcases h.toNat with h0 | h0
    · rw [h0]
      exact Nat.mod_eq_of_lt (by omega)
    · rw [h0]
      exact Nat.mod_eq_of_lt (by omega)
  have hbyte (j : ℕ) (hj : j < 3) : (u.take pid [b, b']).received j = [pid, b, b'].getD j 0 := by
    have hj' := hpos j (by omega)
    refine (putBytes_in _ _ ⟨?_, ?_⟩).trans ?_
    · exact (Nat.le_add_right _ j).trans_eq hj'.symm
    · exact hj'.trans_lt (Nat.add_lt_add_left hj _)
    · change [pid, b, b'].getD ((Fin.ofNat 22 (u.usbInputBufOffset.toNat + j)).val -
        u.usbInputBufOffset.toNat) 0 = _
      rw [hj', Nat.add_sub_cancel_left]
  exact ⟨hbyte 1 (by decide), hbyte 2 (by decide)⟩

theorem address_take {u : Usbdrv} (h : u.Half) (pid b b' : UInt8) :
    (u.take pid [b, b']).address = b <<< 1 := by
  unfold address
  rw [(received_take h pid b b').1]

/-- The device answers an IN if and only if it is addressed to it. -/
theorem answers_in {u : Usbdrv} (h : u.Half) (b b' : UInt8) :
    (u.interrupt usbpidIn [b, b']).2 ≠ [] ↔ b <<< 1 = u.usbDeviceAddr := by
  have hin : ((u.take usbpidIn [b, b']).handleIn).2 ≠ [] := by
    unfold handleIn handleIn1
    split_ifs
    all_goals exact List.cons_ne_nil _ _
  have hint : u.interrupt usbpidIn [b, b'] =
      if (u.take usbpidIn [b, b']).address ≠ u.usbDeviceAddr then
        ({ u.take usbpidIn [b, b'] with usbCurrentTok := 0 }, [])
      else (u.take usbpidIn [b, b']).handleIn := rfl
  rw [hint, address_take h]
  split_ifs with ha
  · exact ⟨fun h => absurd rfl h, fun h => absurd h ha⟩
  · exact ⟨fun _ => not_not.mp ha, fun _ => hin⟩

end Usbdrv

namespace Firmware

variable {L : Layout}

def dataSent (s : Firmware) (e : Event) : List Answer := (s.answers e).filter Answer.isData

def Event.running : Event → Prop
  | .loop i => i.lines = true
  | _ => True

instance : DecidablePred Event.running
  | .loop i => inferInstanceAs (Decidable (i.lines = true))
  | .packet _ _ | .background _ => .isTrue trivial

/-- The address while a request for `a` is carried out, on a device that had the address `old`. -/
def AddrInv (r : Rx) (old : UInt8) (s : Firmware) (sent : List Answer) : Prop :=
  (s.waiting = [r] ∧ sent = [] ∧ s.drv.usbDeviceAddr = old) ∨
    (s.waiting = [] ∧ s.drv.usbNewDeviceAddr = r.data 2 ∧
      s.drv.usbDeviceAddr = if sent = [] then old else r.data 2 <<< 1)

end Firmware

structure Rx.SetsAddress (r : Rx) : Prop where
  token : r.token = usbpidSetup
  len : r.len = 8
  type : r.data 0 &&& usbrqTypeMask = 0
  request : r.data 1 = 5

namespace Firmware

variable {L : Layout}

theorem setAddress_process {s : Firmware} (h : s.drv.rx.SetsAddress) :
    (s.usbProcessRx L).drv.usbNewDeviceAddr = s.drv.rx.data 2 ∧
      (s.usbProcessRx L).drv.usbDeviceAddr = s.drv.usbDeviceAddr := by
  have htok : s.drv.usbRxToken = usbpidSetup := h.token
  have hlen : s.drv.usbRxLen - 3 = 8 := h.len
  have htype : s.drv.rxData 0 &&& usbrqTypeMask = 0 := h.type
  have hreq : s.drv.rxData 1 = 5 := h.request
  unfold usbProcessRx processSetup Usbdrv.driverReply Usbdrv.usbDriverSetup
  dsimp only
  rw [if_pos htok, if_neg (not_not.mpr hlen), if_neg (not_not.mpr htype), hreq]
  exact ⟨rfl, rfl⟩

theorem filter_handshakes {ans : List Answer} (h : ∀ a ∈ ans, ∃ p, a = .handshake p) :
    ans.filter Answer.isData = [] := by
  refine List.filter_eq_nil_iff.mpr fun a ha => ?_
  obtain ⟨p, rfl⟩ := h a ha
  exact Bool.false_ne_true

/-- An interrupt, which takes no new packet. -/
theorem addrInv_packet {r : Rx} {old : UInt8} {s : Firmware} {sent : List Answer} {l : List Rx}
    {k : List Memtype.Event} (hrx : RxInv s l k) (h : AddrInv r old s sent) (pid : UInt8)
    (rest : List UInt8) (hacc : s.accepted (.packet pid rest) = []) :
    AddrInv r old { s with drv := (s.drv.interrupt pid rest).1 }
      (sent ++ s.dataSent (.packet pid rest)) := by
  have hdata := Usbdrv.rxData_take hrx.half pid rest
  have hint := s.drv.interrupts pid rest
  dsimp only [dataSent, answers, accepted] at hacc ⊢
  generalize s.drv.interrupt pid rest = x at hint hacc
  have hwait {u : Usbdrv} (hsame : s.drv.SameRx u) : waiting { s with drv := u } = s.waiting := by
    unfold waiting Usbdrv.rx
    dsimp only
    rw [hsame.len, hsame.data, hsame.token]
  have hbusy (hfree : s.drv.usbRxLen = 0) : s.waiting = [] := if_pos (.inl hfree)
  cases hint with
  | quiet tok ans _ hans _ =>
    rw [filter_handshakes hans, List.append_nil]
    exact h.imp (fun h => ⟨(hwait ⟨hdata, rfl, rfl, rfl⟩).trans h.1, h.2⟩)
      fun h => ⟨(hwait ⟨hdata, rfl, rfl, rfl⟩).trans h.1, h.2⟩
  | stored hpid hlen _ _ _ =>
    rw [if_pos ⟨hpid, rfl, hlen⟩] at hacc
    exact absurd hacc nofun
  | control _ hfree _ =>
    rcases h with ⟨hw, -⟩ | ⟨hw, hnew, -⟩
    · exact absurd (hw.symm.trans (hbusy hfree)) nofun
    · refine .inr ⟨(hwait ⟨hdata, rfl, rfl, rfl⟩).trans hw, hnew, ?_⟩
      refine Eq.trans ?_ (if_neg (by simp [Answer.isData])).symm
      exact congrArg (fun x : UInt8 => x <<< (1 : UInt8)) hnew
  | report _ hfree _ =>
    rcases h with ⟨hw, -⟩ | ⟨hw, hnew, -⟩
    · exact absurd (hw.symm.trans (hbusy hfree)) nofun
    · refine .inr ⟨(hwait ⟨hdata, rfl, rfl, rfl⟩).trans hw, hnew, ?_⟩
      refine Eq.trans ?_ (if_neg (by simp [Answer.isData])).symm
      exact congrArg (fun x : UInt8 => x <<< (1 : UInt8)) hnew

theorem addrInv_loop {r : Rx} {old : UInt8} {s s' : Firmware} {sent : List Answer} {i : Inputs}
    (hr : r.SetsAddress) (h : AddrInv r old s sent) (hi : i.lines = true) (hs : Loops L i s s') : AddrInv r old s' sent := by
  have hkeep {d : Device} {u : Usbdrv} {pc : Pc} (hsame : s.drv.SameRx u)
      (hnew : u.usbNewDeviceAddr = s.drv.usbNewDeviceAddr) (haddr : u.usbDeviceAddr = s.drv.usbDeviceAddr)
      (hpc : s.pc ≠ .release) (hpc' : pc ≠ .release) : AddrInv r old ⟨d, u, pc⟩ sent := by
    have hwait : waiting ⟨d, u, pc⟩ = s.waiting := by
      unfold waiting Usbdrv.rx
      dsimp only
      rw [hsame.len, hsame.data, hsame.token]
      simp only [hpc, hpc']
    unfold AddrInv
    rw [hwait]
    dsimp only
    rw [hnew, haddr]
    exact h
  have hrefl : s.drv.SameRx s.drv := ⟨rfl, rfl, rfl, rfl⟩
  cases hs with
  | process hpc hlen =>
    have hne : s.drv.usbRxLen ≠ 0 := fun h0 => hlen (by rw [h0]; decide)
    have hw : s.waiting = [s.drv.rx] := if_neg (not_or.mpr ⟨hne, by rw [hpc]; decide⟩)
    rcases h with ⟨hwait, hsent, haddr⟩ | ⟨hwait, -⟩
    · cases List.singleton_inj.mp (hwait.symm.trans hw)
      obtain ⟨hnew, hold⟩ := setAddress_process (L := L) hr
      refine .inr ⟨if_pos (.inr rfl), hnew, ?_⟩
      rw [if_pos hsent]
      exact hold.trans haddr
    · exact absurd (hwait.symm.trans hw) nofun
  | release hpc =>
    have hw : s.waiting = [] := if_pos (.inr hpc)
    rcases h with ⟨hwait, -⟩ | ⟨-, h⟩
    · exact absurd (hw.symm.trans hwait) nofun
    · exact .inr ⟨if_pos (.inl rfl), h⟩
  | lines hpc d new addr haddr =>
    obtain ⟨rfl, rfl⟩ := haddr.resolve_right fun h => absurd (hi.symm.trans h.1) nofun
    exact hkeep ⟨rfl, rfl, rfl, rfl⟩ rfl rfl (by rw [hpc]; decide) (by decide)
  | poll hpc _ => exact hkeep hrefl rfl rfl (by rw [hpc]; decide) (by decide)
  | build hpc _ _ => exact hkeep ⟨rfl, rfl, rfl, rfl⟩ rfl rfl (by rw [hpc]; decide) (by decide)
  | skip hpc _ => exact hkeep hrefl rfl rfl (by rw [hpc]; decide) (by decide)
  | task hpc d => exact hkeep hrefl rfl rfl (by rw [hpc]; decide) (by decide)
  | report hpc _ d _ => exact hkeep ⟨rfl, rfl, rfl, rfl⟩ rfl rfl (by rw [hpc]; decide) (by decide)
  | busy hpc _ => exact hkeep hrefl rfl rfl (by rw [hpc]; decide) (by decide)

theorem addrInv_step {r : Rx} {old : UInt8} {s s' : Firmware} {sent : List Answer} {e : Event}
    {l : List Rx} {k : List Memtype.Event} (hr : r.SetsAddress) (hrx : RxInv s l k)
    (h : AddrInv r old s sent) (hacc : s.accepted e = []) (he : e.running) (hs : step L s e = .ret s') :
    AddrInv r old s' (sent ++ s.dataSent e) := by
  cases e with
  | packet pid rest =>
    cases Outcome.ret.inj hs
    exact addrInv_packet hrx h pid rest hacc
  | background ram =>
    cases Outcome.ret.inj hs
    exact (List.append_nil sent).symm ▸ h
  | loop i => exact (List.append_nil sent).symm ▸ addrInv_loop hr h he (loops hs)

theorem addrInv_run {r : Rx} {old : UInt8} {s s' : Firmware} {sent : List Answer} {evs : List Event}
    {l : List Rx} {k : List Memtype.Event} (hr : r.SetsAddress) (hrx : RxInv s l k)
    (h : AddrInv r old s sent) (hacc : collect (step L) accepted (.ret s) evs = [])
    (he : ∀ e ∈ evs, e.running) (hs : run (step L) (.ret s) evs = .ret s') :
    AddrInv r old s' (sent ++ collect (step L) dataSent (.ret s) evs) ∧ s'.drv.Half := by
  induction evs generalizing s sent l k with
  | nil =>
    cases Outcome.ret.inj hs
    exact ⟨(List.append_nil sent).symm ▸ h, hrx.half⟩
  | cons e evs ih =>
    rw [run_cons, Outcome.bind_ret] at hs
    rw [collect, List.append_eq_nil_iff] at hacc
    cases hstep : step L s e with
    | spin t =>
      rw [hstep, run_spin] at hs
      cases hs
    | ret t =>
      have hnext := addrInv_step hr hrx h hacc.1 (he e List.mem_cons_self) hstep
      rw [hstep] at hs hacc
      rw [collect, hstep, ← List.append_assoc]
      exact ih (rxInv_step hrx hstep) hnext hacc.2 (fun e h => he e (List.mem_cons_of_mem _ h)) hs

/-- From the acknowledgement of a SET_ADDRESS until the host sends something else or resets the bus,
the device answers an IN if and only if it has the old address, as long as no data packet has gone
out, and the new one from then on. -/
theorem set_address {flash eeprom ram : Mem} {evs evs' : List Event} {pid : UInt8}
    {rest : List UInt8} {s s' : Firmware} {r : Rx}
    (hs : run (step L) (powerOn L flash eeprom ram) evs = .ret s)
    (hacc : s.accepted (.packet pid rest) = [r]) (hr : r.SetsAddress)
    (hs' : run (step L) (step L s (.packet pid rest)) evs' = .ret s')
    (hquiet : collect (step L) accepted (step L s (.packet pid rest)) evs' = [])
    (hlines : ∀ e ∈ evs', e.running) (b b' : UInt8) :
    s'.answers (.packet usbpidIn [b, b']) ≠ [] ↔
      b <<< 1 = if collect (step L) dataSent (step L s (.packet pid rest)) evs' = [] then
        s.drv.usbDeviceAddr else r.data 2 <<< 1 := by
  have hrx := rxInv_run hs
  have hstart : AddrInv r s.drv.usbDeviceAddr { s with drv := (s.drv.interrupt pid rest).1 } [] := by
    refine .inl ⟨waiting_accepted hrx hacc, rfl, ?_⟩
    have hint := s.drv.interrupts pid rest
    dsimp only [accepted] at hacc ⊢
    generalize s.drv.interrupt pid rest = x at hint hacc
    cases hint with
    | quiet _ _ _ _ _ => rfl
    | stored _ _ _ _ _ => rfl
    | control hpid _ _ =>
      rw [if_neg (Usbdrv.acked_in hpid)] at hacc
      exact absurd hacc nofun
    | report hpid _ _ =>
      rw [if_neg (Usbdrv.acked_in hpid)] at hacc
      exact absurd hacc nofun
  obtain ⟨hinv, hhalf⟩ := addrInv_run hr (hrx.packet pid rest) hstart hquiet hlines hs'
  have haddr : s'.drv.usbDeviceAddr =
      if collect (step L) dataSent (step L s (.packet pid rest)) evs' = [] then
        s.drv.usbDeviceAddr else r.data 2 <<< 1 := by
    rcases hinv with ⟨-, hsent, haddr⟩ | ⟨-, -, haddr⟩
    · exact haddr.trans (if_pos hsent).symm
    · exact haddr
  rw [← haddr]
  exact Usbdrv.answers_in hhalf b b'

def setAddress : Rx := ⟨usbpidSetup, ![0, 5, 7, 0, 0, 0, 0, 0], 8⟩

theorem set_address_seven :
    let o := step sampleLayout tokenTaken (.packet usbpidData0 (List.ofFn setAddress.data ++ [0, 0]))
    (run (step sampleLayout) o (fetch 1)).state.answers (.packet usbpidIn [7, 0]) ≠ [] ↔
      (7 : UInt8) <<< 1 = if collect (step sampleLayout) dataSent o (fetch 1) = [] then
        tokenTaken.drv.usbDeviceAddr else setAddress.data 2 <<< 1 :=
  set_address run_tokenTaken (by decide +kernel) ⟨rfl, rfl, rfl, rfl⟩
    (Outcome.eq_ret_of_returns (by decide +kernel)) (by decide +kernel) (by decide +kernel) 7 0

end Firmware

end Memtype

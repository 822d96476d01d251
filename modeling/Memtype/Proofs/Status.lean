import Memtype.Proofs.Progress

/-! Write transfers on the default endpoint: a SET_REPORT, its data and the status stage. -/

namespace Memtype

open Lib

/-- A SET_REPORT whose data `usbFunctionWrite` is to get. -/
structure Rx.Writes (r : Rx) : Prop where
  token : r.token = usbpidSetup
  len : r.len = 8
  type : r.data 0 &&& usbrqTypeMask = usbrqTypeClass
  request : r.data 1 = usbrqHidSetReport
  report : r.data 2 = 2
  direction : r.data 0 &&& 0x80 = 0

namespace Firmware

variable {L : Layout}

/-- Nothing is to be sent until the data has come. -/
structure AwaitsData (s : Firmware) : Prop where
  idle : s.drv.usbTxLen = usbpidNak
  msg : s.drv.usbMsgLen = usbNoMsg
  pid : s.drv.usbTxBuf 0 = usbpidData0
  user : s.drv.userRw = true

theorem awaitsData_setup {s : Firmware} (h : s.drv.rx.Writes) :
    AwaitsData { s.usbProcessRx L with pc := .release } := by
  have htok : s.drv.usbRxToken = usbpidSetup := h.token
  have hlen : s.drv.usbRxLen - 3 = 8 := h.len
  have htype : s.drv.rxData 0 &&& usbrqTypeMask ≠ 0 := fun h0 =>
    absurd (h.type.symm.trans h0) (by decide)
  have hnone : (usbFunctionSetup L (usbRequest s.drv.rxData) s.dev).2 = none :=
    usbFunctionSetup_none.mpr ⟨h.type, h.request, h.report⟩
  have hproc : s.usbProcessRx L = { s with
      dev := (usbFunctionSetup L (usbRequest s.drv.rxData) s.dev).1,
      drv := s.drv.newSetup.functionReply s.drv.rxData none } := by
    unfold usbProcessRx processSetup
    dsimp only
    rw [if_pos htok, if_neg (not_not.mpr hlen), if_pos htype, ← hnone]
  rw [hproc]
  refine ⟨rfl, if_neg (not_not.mpr h.direction), newSetup_pid s.drv, ?_⟩
  exact (userRw_eq (f := usbFlgUseUserRw) rfl).trans (by decide)

theorem AwaitsData.same {s s' : Firmware} (h : AwaitsData s) (htx : SameTx s.drv s'.drv) :
    AwaitsData s' :=
  ⟨htx.len.trans h.idle, htx.msgLen.trans h.msg, (congrFun htx.buf 0).trans h.pid,
    (userRw_eq htx.flags).trans h.user⟩

/-- Nothing but the packet that `usbPoll` takes ends it. -/
theorem awaitsData_step {s s' : Firmware} {e : Event} (h : AwaitsData s)
    (hrx : ∀ i, e = .loop i → s.pc ≠ .rx ∨ s.drv.usbRxLen < 3) (hs : step L s e = .ret s') :
    AwaitsData s' := by
  have hidle : isHandshake s.drv.usbTxLen = true := by
    rw [h.idle]
    decide
  cases e with
  | packet pid rest =>
    cases Outcome.ret.inj hs
    have hint := s.drv.interrupts pid rest
    generalize s.drv.interrupt pid rest = x at hint
    cases hint with
    | quiet _ _ _ _ _ => exact h.same ⟨rfl, rfl, rfl, rfl, rfl⟩
    | stored _ _ _ _ _ => exact h.same ⟨rfl, rfl, rfl, rfl, rfl⟩
    | control _ _ hlen => exact absurd (hidle.symm.trans hlen) nofun
    | report _ _ _ => exact h.same ⟨rfl, rfl, rfl, rfl, rfl⟩
  | background ram =>
    cases Outcome.ret.inj hs
    exact h.same (sameTx_refl _)
  | loop i =>
    cases loops hs with
    | process hpc hlen => exact absurd (hrx i rfl) (not_or.mpr ⟨not_not.mpr hpc, hlen⟩)
    | build _ _ hmsg => exact absurd h.msg hmsg
    | poll _ _ => exact h.same (sameTx_refl _)
    | release _ => exact h.same ⟨rfl, rfl, rfl, rfl, rfl⟩
    | skip _ _ => exact h.same (sameTx_refl _)
    | lines _ _ _ _ _ => exact h.same ⟨rfl, rfl, rfl, rfl, rfl⟩
    | task _ _ => exact h.same (sameTx_refl _)
    | report _ _ _ _ => exact h.same ⟨rfl, rfl, rfl, rfl, rfl⟩
    | busy _ _ => exact h.same (sameTx_refl _)

theorem free_of_waiting {s : Firmware} (h : s.waiting = []) : s.pc ≠ .rx ∨ s.drv.usbRxLen < 3 := by
  unfold waiting at h
  split_ifs at h with hc
  rcases hc with h0 | hpc
  · exact .inr (by rw [h0]; decide)
  · exact .inl (by rw [hpc]; decide)

theorem awaitsData_run {s s' : Firmware} {evs : List Event} (h : AwaitsData s) (hmsg : MsgInv s)
    (hw : s.waiting = []) (hacc : collect (step L) accepted (.ret s) evs = [])
    (hs : run (step L) (.ret s) evs = .ret s') : AwaitsData s' := by
  induction evs generalizing s with
  | nil =>
    cases Outcome.ret.inj hs
    exact h
  | cons e evs ih =>
    rw [run_cons, Outcome.bind_ret] at hs
    rw [collect, List.append_eq_nil_iff] at hacc
    cases he : step L s e with
    | spin t =>
      rw [he, run_spin] at hs
      cases hs
    | ret t =>
      obtain ⟨-, hmsg', hw'⟩ := toSend_step hmsg hw hacc.1 he
      rw [he] at hs hacc
      exact ih (awaitsData_step h (fun _ _ => free_of_waiting hw) he) hmsg' hw' hacc.2 hs

theorem AwaitsData.toSend {s : Firmware} (h : AwaitsData s) : s.toSend = [] := by
  have hidle : isHandshake s.drv.usbTxLen = true := by
    rw [h.idle]
    decide
  unfold Firmware.toSend inBuffer toBuild
  rw [if_pos hidle, if_pos h.msg]
  rfl

/-- After the data an empty packet is to be sent. -/
theorem AwaitsData.taken {s : Firmware} (h : AwaitsData s) (htok : s.drv.rx.token ≠ usbpidSetup) :
    Firmware.toSend { s.usbProcessRx L with pc := .release } = [Usbdrv.framed usbpidData1 []] ∧
      MsgInv { s.usbProcessRx L with pc := .release } := by
  have htok' : ¬s.drv.usbRxToken = usbpidSetup := htok
  have huser : s.drv.usbMsgFlags &&& usbFlgUseUserRw ≠ 0 := of_decide_eq_true h.user
  have hproc : s.usbProcessRx L = { s with
      dev := ucpDecode L s.drv.rxData (s.drv.usbRxLen - 3) s.dev, drv := { s.drv with usbMsgLen := 0 } } := by
    unfold usbProcessRx processOut
    dsimp only
    rw [if_neg htok', if_pos huser]
    rfl
  have hidle : isHandshake s.drv.usbTxLen = true := by
    rw [h.idle]
    decide
  have hzero : ¬(0 : UInt8) = usbNoMsg := by decide
  have hdead {d : Device} : ¬Live ⟨d, { s.drv with usbMsgLen := 0 }, .release⟩ := fun hl => hl.2 rfl
  rw [hproc]
  refine ⟨?_, fun hl => absurd hl hdead, fun hl => absurd hl hdead, fun hl => absurd hl hdead⟩
  unfold Firmware.toSend inBuffer toBuild message
  dsimp only
  rw [if_pos hidle, if_neg hzero, h.pid, UInt8.toNat_zero, List.take_zero,
    Usbdrv.packets_short _ (by decide)]
  rfl

theorem awaitsData_waiting {r : Rx} {s s' : Firmware} {e : Event} (h : AwaitsData s)
    (hw' : s'.waiting = [r]) (hs : step L s e = .ret s') : AwaitsData s' := by
  refine awaitsData_step h (fun i he => ?_) hs
  by_contra hrx
  obtain ⟨hpc, hlen⟩ := not_or.mp hrx
  subst he
  have hs' : s' = { s.usbProcessRx L with pc := .release } := by
    have hstep : step L s (.loop i) = .ret { s.usbProcessRx L with pc := .release } := by
      unfold step loop
      dsimp only
      rw [not_not.mp hpc]
      exact congrArg Outcome.ret (if_neg hlen)
    exact (Outcome.ret.inj (hstep.symm.trans hs)).symm
  rw [hs'] at hw'
  exact absurd ((if_pos (.inr rfl) : waiting { s.usbProcessRx L with pc := .release } = []).symm.trans hw')
    nofun

theorem waiting_of_accepted {s : Firmware} {pid : UInt8} {rest : List UInt8} {r : Rx}
    (h : s.accepted (.packet pid rest) = [r]) : s.waiting = [] := by
  have hint := s.drv.interrupts pid rest
  dsimp only [accepted] at h
  generalize s.drv.interrupt pid rest = x at hint h
  cases hint with
  | quiet _ _ _ _ hn =>
    rw [if_neg hn] at h
    exact absurd h nofun
  | stored _ _ _ _ hfree => exact if_pos (.inl hfree)
  | control hpid _ _ =>
    rw [if_neg (Usbdrv.acked_in hpid)] at h
    exact absurd h nofun
  | report hpid _ _ =>
    rw [if_neg (Usbdrv.acked_in hpid)] at h
    exact absurd h nofun

/-- A write transfer: between the request and its data the endpoint sends nothing, and once the data
has been taken exactly one packet, the empty one of the status stage, until the host sends something
else. -/
theorem write_status {flash eeprom ram : Mem} {evs evs₁ evs₂ : List Event} {pid pid' : UInt8}
    {rest rest' : List UInt8} {s s₁ s₂ : Firmware} {r r' : Rx}
    (hs : run (step L) (powerOn L flash eeprom ram) evs = .ret s)
    (hacc : s.accepted (.packet pid rest) = [r]) (hr : r.Writes)
    (hs₁ : run (step L) (step L s (.packet pid rest)) evs₁ = .ret s₁)
    (hquiet₁ : collect (step L) accepted (step L s (.packet pid rest)) evs₁ = [])
    (hacc' : s₁.accepted (.packet pid' rest') = [r']) (hr' : r'.token ≠ usbpidSetup)
    (hs₂ : run (step L) (step L s₁ (.packet pid' rest')) evs₂ = .ret s₂)
    (hquiet₂ : collect (step L) accepted (step L s₁ (.packet pid' rest')) evs₂ = []) :
    collect (step L) controlSent (step L s (.packet pid rest)) evs₁ = [] ∧
      ((s₂.waiting = [r'] ∧
          collect (step L) controlSent (step L s₁ (.packet pid' rest')) evs₂ = []) ∨
        collect (step L) controlSent (step L s₁ (.packet pid' rest')) evs₂ ++ s₂.toSend =
          [Usbdrv.framed usbpidData1 []]) := by
  -- the three parts of the run, from power-on
  have hrun := acked_run hs hacc
  have hrun₁ : run (step L) (powerOn L flash eeprom ram) (evs ++ [.packet pid rest] ++ evs₁) = .ret s₁ := by
    rw [run_append, hrun.1]
    exact hs₁
  have hrun₂ := acked_run hrun₁ hacc'
  -- the request
  have htake (t : Firmware) (ht : t.drv.rx = r) : MsgInv { t.usbProcessRx L with pc := .release } := by
    rw [processRx_setup ht hr.token hr.len]
    exact (toSend_setup fun h => h.2.2.2 hr.direction).2
  rcases taken_run (P := fun _ => True) (fun _ _ _ _ _ _ _ => trivial) (fun t _ ht => htake t ht)
      (rxInv_run hrun.1) (waiting_accepted (rxInv_run hs) hacc) trivial hquiet₁ hs₁ with
    ⟨hwait, -, -⟩ | ⟨pre, i, post, t, rfl, hpre, hpc, hrx, -, hstep, hsend, -⟩
  · exact absurd (hwait.symm.trans (waiting_of_accepted hacc')) nofun
  have hawait := awaitsData_setup (L := L) (s := t) (hrx ▸ hr)
  rw [hawait.toSend] at hsend
  refine ⟨(List.append_eq_nil_iff.mp hsend).1, ?_⟩
  have hawait₁ : AwaitsData s₁ := by
    have hpost : run (step L) (.ret { s with drv := (s.drv.interrupt pid rest).1 }) (pre ++ [.loop i]) =
        .ret { t.usbProcessRx L with pc := .release } := by
      rw [run_append, hpre]
      exact hstep
    have hsplit : pre ++ .loop i :: post = (pre ++ [.loop i]) ++ post := by simp
    rw [hsplit, collect_append, List.append_eq_nil_iff] at hquiet₁
    rw [hsplit, run_append] at hs₁
    have hacc₁ : collect (step L) accepted (.ret { t.usbProcessRx L with pc := .release }) post = [] :=
      hpost ▸ hquiet₁.2
    exact awaitsData_run hawait (htake t hrx) (if_pos (.inr rfl)) hacc₁ (hpost ▸ hs₁)
  -- the data
  rcases taken_run (P := AwaitsData) (fun _ _ _ h _ hw' hs => awaitsData_waiting h hw' hs)
      (fun _ h ht => (h.taken (ht ▸ hr')).2) (rxInv_run hrun₂.1)
      (waiting_accepted (rxInv_run hrun₁) hacc')
      (awaitsData_step (L := L) (e := .packet pid' rest') hawait₁ (fun _ h => absurd h nofun) rfl)
      hquiet₂ hs₂ with
    ⟨hwait, -, hnone⟩ | ⟨-, -, -, t, -, -, -, hrx, hdata, -, hsend, -⟩
  · exact .inl ⟨hwait, hnone⟩
  · exact .inr (hsend.trans (hdata.taken (hrx ▸ hr')).1)

def setReportSetup : Rx := ⟨usbpidSetup, ![0x21, 9, 2, 3, 0, 0, 8, 0], 8⟩

def setReportData : Rx := ⟨usbpidOut, ![5, 0, 0, 0, 0, 0, 0, 0], 8⟩

def dataToken : Firmware :=
  (run (step sampleLayout) (step sampleLayout tokenTaken (.packet usbpidData0
    (List.ofFn setReportSetup.data ++ [0, 0]))) (Event.passes 7 ++ [.token usbpidOut])).state

theorem write_status_setReport :
    let o := step sampleLayout tokenTaken (.packet usbpidData0 (List.ofFn setReportSetup.data ++ [0, 0]))
    let o' := step sampleLayout dataToken (.packet usbpidData1 (List.ofFn setReportData.data ++ [0, 0]))
    collect (step sampleLayout) controlSent o (Event.passes 7 ++ [.token usbpidOut]) = [] ∧
      (((run (step sampleLayout) o' (fetch 2)).state.waiting = [setReportData] ∧
          collect (step sampleLayout) controlSent o' (fetch 2) = []) ∨
        collect (step sampleLayout) controlSent o' (fetch 2) ++
          (run (step sampleLayout) o' (fetch 2)).state.toSend = [Usbdrv.framed usbpidData1 []]) :=
  write_status (r := setReportSetup) run_tokenTaken (by decide +kernel)
    ⟨rfl, rfl, by decide, rfl, rfl, by decide⟩ (Outcome.eq_ret_of_returns (by decide +kernel))
    (by decide +kernel) (by decide +kernel) (by decide) (Outcome.eq_ret_of_returns (by decide +kernel))
    (by decide +kernel)

end Firmware

end Memtype

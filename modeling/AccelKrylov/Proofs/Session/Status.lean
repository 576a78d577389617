import AccelKrylov.Device.Script
import AccelKrylov.Proofs.Session.Memory

/-! The sign of a status. Errors of the library's own have negative statuses; where a device and the system do
no worse with the numbers that they choose, so has whatever a session fails with. -/

namespace AccelKrylov

variable {σ : Type}

/-! ### Errors -/

theorem negated_of_pos {code : Int32} (h : 0 < code) : -code < 0 := by
  rw [Int32.lt_iff_toInt_lt] at h ⊢
  have hcode := code.toInt_lt
  have hzero : (0 : Int32).toInt = 0 := rfl
  rw [hzero] at h ⊢
  rw [Int32.toInt_neg, Int.bmod_eq_of_le (by omega) (by omega)]
  omega

/-- The numbers of system failures are positive. -/
def IoError.Numbered (cause : IoError) : Prop := ∀ code, cause = .os code → 0 < code

theorem IoError.Numbered.status {cause : IoError} (h : cause.Numbered) :
    cause.negatedCode?.getD Error.deviceStatus < 0 := by
  cases cause with
  | os code => exact negated_of_pos (h code rfl)
  | embeddedNul | other => exact (by decide : Error.deviceStatus < 0)

namespace Error

/-- The failure of the system that is behind an error. -/
def cause? : Error → Option IoError
  | deviceUnavailable _ source | notification source | io source => some source
  | _ => none

/-- Only a number that a device or the system chooses can make a status anything but negative. -/
theorem status_neg {e : Error} (device : ∀ command status, e = .device command status → status < 0)
    (system : ∀ cause, e.cause? = some cause → cause.Numbered) : e.status < 0 := by
  cases e with
  | device command status => exact device command status rfl
  | deviceUnavailable _ source | notification source | io source => exact (system source rfl).status
  | missingConfiguration | invalidConfiguration | firmwareNotFound =>
    exact (by decide : configurationStatus < 0)
  | unsupportedFormat => exact (by decide : unsupportedFormatStatus < 0)
  | allocation => exact (by decide : allocationStatus < 0)
  | malformedBuffer | invalidDimensions | invalidArgument | argumentMismatch =>
    exact (by decide : invalidInputStatus < 0)
  | interruptHandler | dispatcher | unsupportedPlatform => exact (by decide : deviceStatus < 0)

theorem status_ofAllocation (fault : AllocationError) : (ofAllocation fault).status < 0 := by
  cases fault <;> exact status_neg nofun nofun

theorem status_ofPool (fault : PoolError) : (ofPool fault).status < 0 := by
  cases fault <;> exact status_neg nofun nofun

theorem status_ofProduct (fault : ProductError) : (ofProduct fault).status < 0 := by
  cases fault <;> exact status_neg nofun nofun

end Error

/-! ### Sessions -/

/-- What a device reports as a failure, after whatever commands, has a negative status, and the system
numbers what breaks its completion event. -/
structure Transport.FailsNegatively (t : Transport σ) (d : σ) : Prop where
  submit : ∀ commands cmd fault, (t.submit (t.after d commands) cmd).outcome = .error fault →
    fault.status < 0
  broken : ∀ commands cmd cause, (t.submit (t.after d commands) cmd).broken = some cause → cause.Numbered

/-- The device file fails negatively if the system numbers its failures. -/
theorem Transport.deviceFile_failsNegatively {files : FileSystem} (path : String)
    (h : ∀ cause, files.canOpen path = .error cause → cause.Numbered) :
    (deviceFile files path).FailsNegatively () where
  submit commands cmd fault hfault := by
    unfold deviceFile at hfault
    dsimp only at hfault
    split at hfault
    next =>
      obtain rfl := Except.error.inj hfault
      exact (by decide : unknownRequest < 0)
    next cause hcause =>
      obtain rfl := Except.error.inj hfault
      exact (h cause hcause).status
  broken commands cmd cause hbroken := by
    unfold deviceFile at hbroken
    dsimp only at hbroken
    split at hbroken <;> cases hbroken

namespace ScriptedDevice

theorem script_submit (d : ScriptedDevice) (cmd : Command) : (d.submit cmd).device.script = d.script := by
  unfold submit
  dsimp only
  split
  · rfl
  · split
    · split <;> rfl
    · rfl
    · rfl

theorem script_after (path : Option String) (d : ScriptedDevice) (commands : List Command) :
    ((transport path).after d commands).script = d.script := by
  induction commands generalizing d with
  | nil => rfl
  | cons cmd commands ih => exact (ih (d.submit cmd).device).trans (d.script_submit cmd)

/-- A scripted device fails negatively if the statuses in its script are negative. -/
theorem failsNegatively {d : ScriptedDevice}
    (h : ∀ kind status, d.script.failure kind = some status → status < 0) (path : Option String) :
    (transport path).FailsNegatively d where
  submit commands cmd fault hfault := by
    have hscript := script_after path d commands
    generalize (transport path).after d commands = d' at hfault hscript
    rw [← hscript] at h
    change (d'.submit cmd).outcome = .error fault at hfault
    unfold submit at hfault
    dsimp only at hfault
    split at hfault
    next status hfailure =>
      obtain rfl := Except.error.inj hfault
      exact h cmd.kind status hfailure
    next =>
      split at hfault
      next =>
        split at hfault
        next cause hsignal =>
          obtain rfl := Except.error.inj hfault
          unfold CompletionEvent.signal at hsignal
          split at hsignal
          · obtain rfl := Except.error.inj hsignal
            exact (by decide : (Error.notification .invalid).status < 0)
          · split at hsignal <;> cases hsignal
        next => cases hfault
      next => cases hfault
      next => cases hfault
  broken commands cmd cause hbroken := by
    generalize (transport path).after d commands = d' at hbroken
    change (d'.submit cmd).broken = some cause at hbroken
    unfold submit at hbroken
    dsimp only at hbroken
    split at hbroken
    · cases hbroken
    · split at hbroken
      · split at hbroken <;> cases hbroken
      · cases hbroken
      · cases hbroken

end ScriptedDevice

/-- The exchange is an answer of a device that was in the given state at first. -/
def Exchange.Answered (t : Transport σ) (d : σ) (x : Exchange) : Prop :=
  ∃ commands, x.outcome = (t.submit (t.after d commands) x.command).outcome ∧
    x.broken = (t.submit (t.after d commands) x.command).broken

theorem Conversation.answered {t : Transport σ} {d d' : σ} {xs : List Exchange}
    (h : Conversation t d xs d') :
    d' = t.after d (xs.reverse.map (·.command)) ∧ ∀ x ∈ xs, x.Answered t d := by
  induction h with
  | nil => exact ⟨rfl, fun x hx => absurd hx List.not_mem_nil⟩
  | @cons d' xs cmd records earlier written ih =>
    obtain ⟨hdevice, hanswered⟩ := ih
    refine ⟨?_, fun x hx => ?_⟩
    · rw [List.reverse_cons, List.map_append, List.map_singleton, Transport.after_concat, ← hdevice]
    · rcases List.mem_cons.mp hx with rfl | hx
      · exact ⟨xs.reverse.map (·.command), by rw [← hdevice], by rw [← hdevice]⟩
      · exact hanswered x hx

/-- Whatever keeps a completion event from being waited on has broken it. -/
theorem exists_broken {sent : List Exchange} {cause : IoError} (h : eventAfter sent = .error cause) :
    ∃ x ∈ sent, x.broken = some cause := by
  induction sent using List.reverseRecOn with
  | nil => cases h
  | append_singleton sent x ih =>
    have hearlier (h : eventAfter sent = .error cause) : ∃ y ∈ sent ++ [x], y.broken = some cause := by
      obtain ⟨y, hy, hbroken⟩ := ih h
      exact ⟨y, List.mem_append_left [x] hy, hbroken⟩
    rw [eventAfter_append] at h
    unfold CompletionEvent.meet at h
    cases hevent : eventAfter sent with
    | error earlier =>
      refine hearlier ?_
      rw [hevent] at h ⊢
      split at h <;> exact h
    | ok e =>
      rw [hevent] at h
      split at h
      next last hbroken =>
        obtain rfl := Except.error.inj h
        exact ⟨x, List.mem_append_right sent (List.mem_singleton_self x), hbroken⟩
      next => cases h

theorem Settings.status_of_firmwarePath {s : Settings} {files : FileSystem} {name : String} {fault : Error}
    (h : s.firmwarePath files name = .error fault) : fault.status < 0 := by
  unfold firmwarePath at h
  split at h
  · obtain rfl := Except.error.inj h
    exact Error.status_neg nofun nofun
  · dsimp only at h
    split at h
    · cases h
    · obtain rfl := Except.error.inj h
      exact Error.status_neg nofun nofun

/-- A firmware image is a file, and a file has a size. -/
theorem Settings.exists_size {s : Settings} {files : FileSystem} {name path : String}
    (h : s.firmwarePath files name = .ok path) : ∃ n, files.size path = .ok n := by
  unfold firmwarePath at h
  split at h
  · cases h
  · dsimp only at h
    split at h
    next hfile =>
      obtain rfl := Except.ok.inj h
      unfold FileSystem.isFile at hfile
      split at hfile
      next n hlook =>
        refine ⟨n, ?_⟩
        unfold FileSystem.size
        rw [hlook]
      next => cases hfile
    next => cases h

theorem Image.status_of_locate {h : Host} {settings : Settings} {firmware : String} {fault : Error}
    (herror : locate h settings firmware = .error fault) : fault.status < 0 := by
  rcases bind_eq_error.mp herror with hpath | ⟨path, hpath, hrest⟩
  · exact Settings.status_of_firmwarePath hpath
  obtain ⟨n, hsize⟩ := Settings.exists_size hpath
  rcases bind_eq_error.mp hrest with hfails | ⟨size, -, hchecked⟩
  · rw [hsize] at hfails
    cases hfails
  rcases bind_eq_error.mp hchecked with hnul | ⟨_, -, hdone⟩
  · obtain rfl := ensure_eq_error hnul
    exact Error.status_neg nofun nofun
  · cases hdone

/-- A run fails with a negative status if device and system do. -/
theorem Exit.status_neg {c : Call σ} {sent : List Exchange} {phase : Phase} {fault : Error}
    (h : Exit c sent phase (.failed fault)) (ht : c.transport.FailsNegatively c.machine.device)
    (hsystem : ∀ cause, c.machine.eventRefused = some cause → cause.Numbered)
    (hanswered : ∀ x ∈ sent, x.Answered c.transport c.machine.device) : fault.status < 0 := by
  cases h with
  | notLocated located => exact Image.status_of_locate located
  | noMemory records => exact Error.status_ofAllocation _
  | @refused _ _ x _ _ earlier next outcome =>
    obtain ⟨commands, hcommands, -⟩ := hanswered x (List.mem_append_right _ (List.mem_singleton_self x))
    exact ht.submit commands x.command fault (hcommands.symm.trans outcome)
  | noEvent earlier event => exact (hsystem _ event).status
  | noGuard earlier guard => exact Error.status_neg nofun nofun
  | waitFailed earlier event =>
    obtain ⟨x, hx, hbroken⟩ := exists_broken event
    obtain ⟨commands, -, hcommands⟩ := hanswered x hx
    exact (ht.broken commands x.command _ (hcommands.symm.trans hbroken)).status
  | unreadable earlier back read => exact Error.status_neg nofun nofun
  | changed earlier back read differ => exact Error.status_neg nofun nofun

theorem Call.status_of_failed (c : Call σ) (ht : c.transport.FailsNegatively c.machine.device)
    (hsystem : ∀ cause, c.machine.eventRefused = some cause → cause.Numbered) {fault : Error}
    (h : c.run.2 = .failed fault) : fault.status < 0 := by
  obtain ⟨r, outcome, hrun, hr⟩ := c.ended
  rw [hrun] at h
  obtain rfl : outcome = .failed fault := h
  exact hr.exit.status_neg ht hsystem fun x hx =>
    hr.kept.conversation.answered.2 x (List.mem_reverse.mp hx)

end AccelKrylov

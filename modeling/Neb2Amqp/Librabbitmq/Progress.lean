import Neb2Amqp.Librabbitmq.Clone
import Neb2Amqp.Librabbitmq.Peer

/-!
# Sending to the end

How often `send` has to take something before a message is out. Interruptions and calls that take
nothing only delay a publication, and one whose frames fit into the buffer succeeds as soon as
`send` took as often as it has octets.
-/

namespace Neb2Amqp

open CLib

/-- How often `send` takes something before it fails. -/
def SendAnswer.progress : List SendAnswer → Nat
  | [] => 0
  | .failed :: _ => 0
  | .interrupted :: answers => progress answers
  | .took 0 :: answers => progress answers
  | .took (_ + 1) :: answers => progress answers + 1

def Socket.credit (s : Socket) : Nat := SendAnswer.progress s.answers

theorem sendLoop_progress {sent buf : Bytes} {answers : List SendAnswer} (hbuf : buf ≠ [])
    (hsome : buf.length ≤ SendAnswer.progress answers) :
    ∃ s, sendLoop sent answers buf = (.ok (), s) ∧
      SendAnswer.progress answers ≤ s.credit + buf.length := by
  have hpos := List.length_pos_iff.mpr hbuf
  induction answers generalizing sent buf with
  | nil => exact absurd hsome (Nat.not_le.mpr hpos)
  | cons answer answers ih =>
      cases answer with
      | failed => exact absurd hsome (Nat.not_le.mpr hpos)
      | interrupted => exact ih hbuf hsome hpos
      | took n =>
          unfold sendLoop
          dsimp only
          cases n with
          | zero =>
              rw [Nat.zero_min, if_neg (by omega), List.take_zero, List.append_nil, List.drop_zero]
              exact ih hbuf hsome hpos
          | succ n =>
              unfold SendAnswer.progress at hsome ⊢
              by_cases hall : min (n + 1) buf.length = buf.length
              · rw [if_pos hall]
                refine ⟨_, rfl, ?_⟩
                unfold Socket.credit
                dsimp only
                omega
              · rw [if_neg hall]
                have hless := @List.length_drop _ (min (n + 1) buf.length) buf
                have hne : 0 < (buf.drop (min (n + 1) buf.length)).length := by omega
                obtain ⟨s, hrun, hleft⟩ := @ih (sent ++ buf.take (min (n + 1) buf.length))
                  (buf.drop (min (n + 1) buf.length)) (List.length_pos_iff.mp hne) (by omega) hne
                exact ⟨s, hrun, by omega⟩

theorem affordable_amqpTcpSocketSendInner {buf : Bytes} (hbuf : buf ≠ []) :
    Affordable Socket.credit buf.length (amqpTcpSocketSendInner buf) :=
  fun _ hcredit => sendLoop_progress hbuf hcredit

theorem affordable_amqpTcpSocketWritev {pieces : List Bytes} (hpieces : ∀ piece ∈ pieces, piece ≠ []) :
    Affordable Socket.credit pieces.flatten.length (amqpTcpSocketWritev pieces) := by
  have heach := Affordable.each (g := id) fun piece hpiece =>
    affordable_amqpTcpSocketSendInner (hpieces piece hpiece)
  rwa [List.flatMap_id] at heach

theorem amqpSendFrame_ne_nil {outbound : Bytes} {f : Frame} {pieces : List Bytes}
    (hbody : f.payload ≠ .body []) (h : amqpSendFrame outbound f = .ok pieces) :
    ∀ piece ∈ pieces, piece ≠ [] := by
  have hwhole : ∀ frameType payload, ∀ piece ∈ [wholeFrame frameType f.channel payload], piece ≠ [] := by
    intro frameType payload piece hpiece hnil
    have hlength := wholeFrame_length frameType f.channel payload
    rw [← List.mem_singleton.mp hpiece, hnil] at hlength
    cases hlength
  unfold amqpSendFrame at h
  split at h
  · cases h
  · cases hpayload : f.payload with
    | method m =>
        simp only [hpayload] at h
        cases hencoded : encodePayload outbound 4 (amqpEncodeMethod m) with
        | error fault =>
            rw [hencoded] at h
            cases h
        | ok encoded =>
            rw [hencoded] at h
            cases h
            exact hwhole _ _
    | header bodySize properties =>
        simp only [hpayload] at h
        cases hencoded : encodePayload outbound 12 (amqpEncodeProperties properties) with
        | error fault =>
            rw [hencoded] at h
            cases h
        | ok encoded =>
            rw [hencoded] at h
            cases h
            exact hwhole _ _
    | body fragment =>
        simp only [hpayload] at h
        cases h
        intro piece hpiece hnil
        subst hnil
        rcases List.mem_cons.mp hpiece with hheader | hpiece
        · have hlength := frameHeader_length amqpFrameBody f.channel fragment.length
          rw [← hheader] at hlength
          cases hlength
        · rcases List.mem_cons.mp hpiece with hfragment | hend
          · exact hbody (hfragment ▸ hpayload)
          · cases List.mem_singleton.mp hend
    | heartbeat =>
        simp only [hpayload] at h
        split at h
        · cases h
        · cases h
          exact hwhole _ _
    | protocolHeader a b c d =>
        simp only [hpayload] at h
        cases h

theorem affordable_amqpSendFrameOn {outbound : Bytes} {f : Frame} (hsized : f.payload.Sized)
    (hbody : f.payload ≠ .body []) (hbuffer : headerSize ≤ outbound.length)
    (hroom : f.payload.InBuffer → f.octets.length ≤ outbound.length) :
    Affordable Socket.credit f.octets.length (amqpSendFrameOn outbound f) := by
  obtain ⟨pieces, hpieces, hoctets⟩ := amqpSendFrame_ok hsized hbuffer hroom
  unfold amqpSendFrameOn
  rw [hpieces, ← hoctets]
  exact affordable_amqpTcpSocketWritev (amqpSendFrame_ne_nil hbody hpieces)

theorem affordable_sendBody {o : Outbound} (hmin : headerSize + footerSize < o.frameMax)
    (hmax : o.frameMax < 2 ^ 32) (channel : UInt16) {rounds : Nat} {body : Bytes}
    (hrounds : body.length ≤ rounds) :
    Affordable Socket.credit ((fragments o.usable rounds body).flatMap fun fragment =>
      Frame.octets ⟨channel, .body fragment⟩).length (sendBody o channel rounds body) := by
  have husable : o.usable = o.frameMax - (headerSize + footerSize) := if_pos (Nat.le_of_lt hmin)
  have hbuffer := o.hbuffer
  unfold headerSize footerSize at hmin husable
  induction rounds generalizing body with
  | zero =>
      rw [List.length_eq_zero_iff.mp (Nat.le_zero.mp hrounds)]
      exact affordable_done
  | succ rounds ih =>
      cases body with
      | nil => exact affordable_done
      | cons u rest =>
          have hless : ((u :: rest).drop o.usable).length ≤ rounds := by
            rw [List.length_drop]
            omega
          unfold sendBody fragments
          rw [List.flatMap_cons, List.length_append]
          apply Affordable.andThen _ (ih hless)
          apply affordable_amqpSendFrameOn
          · refine ⟨?_, trivial⟩
            show ((u :: rest).take o.usable).length < 2 ^ 32 - 8
            rw [List.length_take]
            omega
          · intro hempty
            have htake := FramePayload.body.inj hempty
            have hlength := congrArg List.length htake
            rw [List.length_take, List.length_cons, List.length_nil] at hlength
            omega
          · unfold headerSize
            omega
          · intro h
            cases h

section

variable {o : Outbound} {channel : UInt16} {exchange routingKey : Bytes} {mandatory immediate : Bool}
  {properties : Properties} {body : Bytes}

/-- A publication whose method and header fit into the buffer succeeds, however its octets are
taken and whatever interrupts it, once `send` took something as often as there are octets. -/
theorem amqpBasicPublishOn_finishes (h : Publishable o exchange routingKey properties)
    (hmethod : (Frame.octets ⟨channel, .method (publishMethod exchange routingKey mandatory immediate)⟩).length ≤
      o.frameMax)
    (hheader : (Frame.octets ⟨channel, .header (.ofNat body.length) properties⟩).length ≤ o.frameMax)
    {s : Socket}
    (hcredit : ((publishFrames o channel exchange routingKey mandatory immediate properties body).flatMap
      Frame.octets).length ≤ s.credit) :
    ∃ s', amqpBasicPublishOn o channel exchange routingKey mandatory immediate properties body s =
      (.ok (), s') := by
  have hsized : ∀ f ∈ publishFrames o channel exchange routingKey mandatory immediate properties body,
      f.payload.Sized := publishFrames_sized h
  have hbuffer : headerSize ≤ o.buffer.length := by
    rw [o.hbuffer]
    exact Nat.le_trans (Nat.le_add_right _ _) (Nat.le_of_lt h.hframeMin)
  have hfirst := affordable_amqpSendFrameOn (hsized _ List.mem_cons_self)
    (fun hbody => by cases hbody) hbuffer fun _ => hmethod.trans_eq o.hbuffer.symm
  have hsecond := affordable_amqpSendFrameOn (hsized _ (List.mem_cons_of_mem _ List.mem_cons_self))
    (fun hbody => by cases hbody) hbuffer fun _ => hheader.trans_eq o.hbuffer.symm
  have hrest := affordable_sendBody h.hframeMin h.hframeMax channel (Nat.le_refl body.length)
  unfold publishFrames at hcredit
  rw [List.flatMap_cons, List.flatMap_cons, List.flatMap_map, List.length_append, List.length_append] at hcredit
  obtain ⟨s', hrun, _⟩ := (hfirst.andThen (hsecond.andThen hrest)) s hcredit
  exact ⟨s', hrun⟩

/-- Nothing is taken at first, then one octet at a time with interruptions in between. -/
theorem amqpBasicPublishOn_finishes_octetwise :
    ∃ s', amqpBasicPublishOn ⟨64, List.replicate 64 0, List.length_replicate⟩ 1 [97] [98] false false
      ⟨.basic, 0, zeroMembers PropertyClass.basic.layout⟩ [1, 2, 3]
      ⟨.took 0 :: (List.replicate 80 [SendAnswer.interrupted, .took 1]).flatten, []⟩ = (.ok (), s') := by
  have hsized : Properties.Sized ⟨.basic, 0, zeroMembers PropertyClass.basic.layout⟩ := by
    refine ⟨by decide, rfl, ?_⟩
    simp [PropertyClass.layout, membersSized, hasFlag]
  exact amqpBasicPublishOn_finishes ⟨by decide, by decide, hsized, by decide, by decide, by decide⟩
    (by decide) (by decide) (by decide)

end

end Neb2Amqp

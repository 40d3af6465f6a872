import Minbif.World.Remove

/-! Conversations that open, change hands and close, as chains of changes. -/
namespace Minbif
open Function
namespace World

variable {P : Purple} {T : Terms} {w w' : World} {n m : NickRef} {c : ChanRef} {v : ConvRef}
  {a : AccountRef} {name text : Str} {x : Option NickRef}

theorem removeNick_convs (w : World) (V : Convs) (k : Str) :
    ({ w with convs := V }).removeNick k = { w.removeNick k with
      convs := match w.nicks.users.find? k with
        | some n => V.forget n
        | none => V } := by
  unfold removeNick
  cases w.nicks.users.find? k <;> rfl

/-- The nick of a conversation lets go of it; an `UnknownBuddy` goes with it. -/
def dismiss (w : World) (v : ConvRef) : World :=
  let w' : World := { w with convs := w.convs.unlink v }
  match w.convs.uiNick v with
  | none => w'
  | some l => if w.nicks.kind l = .unknownBuddy then w'.removeNick (w.nicks.nickname l) else w'

theorem Ok.uiNick_ok (hw : w.Ok none) (hu : w.convs.uiNick v = some n) :
    w.nicks.alive n = true ∧ (w.nicks.kind n).isConvNick = true :=
  hw.talks.nick n v ((hw.paired.pair v n).mp hu)

theorem dismiss_goes (hw : w.Ok none) (v : ConvRef) : Goes P T w (w.dismiss v) := by
  have hstep : Goes P T w { w with convs := w.convs.unlink v } := (Change.unlink w v).goes
  unfold dismiss
  cases hu : w.convs.uiNick v with
  | none => exact hstep
  | some l =>
    obtain ⟨ha, hk⟩ := hw.uiNick_ok hu
    dsimp only
    split
    · exact hstep.trans (removeNick_changes (hw.table.conv l ha hk) hk)
    · exact hstep

/-- What `dismiss` leaves as it was. -/
structure Dismissed (w w' : World) (v : ConvRef) : Prop where
  uiNick : w'.convs.uiNick v = none
  conversation : ∀ m, w'.convs.conversation m =
    if w.convs.uiNick v = some m then none else w.convs.conversation m
  sameIm : Convs.SameIm w.convs w'.convs
  kind : w'.nicks.kind = w.nicks.kind
  buddy : w'.nicks.buddy = w.nicks.buddy
  alive : ∀ m, w.convs.uiNick v ≠ some m → w.nicks.alive m = true → w'.nicks.alive m = true
  buddies : ∀ m, w.nicks.kind m = .buddy → w.nicks.alive m = true → w'.nicks.alive m = true

theorem Ok.removeNick_found (hw : w.Ok none) (ha : w.nicks.alive n = true)
    (hk : (w.nicks.kind n).isConvNick = true) :
    w.nicks.users.find? (w.nicks.nickname n) = some n := hw.table.find?_nickname ha hk

theorem dismissed (hw : w.Ok none) (v : ConvRef) : Dismissed w (w.dismiss v) v := by
  have hui : (w.convs.unlink v).uiNick v = none := update_self ..
  have hcv : ∀ m, (w.convs.unlink v).conversation m =
      if w.convs.uiNick v = some m then none else w.convs.conversation m := fun m =>
    Convs.unlink_conversation
  have hkeep : Dismissed w { w with convs := w.convs.unlink v } v :=
    ⟨hui, hcv, Convs.sameIm_unlink _ _, rfl, rfl, fun _ _ h => h, fun _ _ h => h⟩
  cases hu : w.convs.uiNick v with
  | none =>
    have hdef : w.dismiss v = { w with convs := w.convs.unlink v } := by simp [dismiss, hu]
    exact hdef ▸ hkeep
  | some l =>
    obtain ⟨ha, hk⟩ := hw.uiNick_ok hu
    have hdef : w.dismiss v = if w.nicks.kind l = .unknownBuddy then
        ({ w with convs := w.convs.unlink v }).removeNick (w.nicks.nickname l)
      else { w with convs := w.convs.unlink v } := by simp [dismiss, hu]
    rw [hdef]
    split
    · next hkind =>
      rw [removeNick_convs, hw.removeNick_found ha hk]
      have heq := removeNick_eq (hw.removeNick_found ha hk)
      -- `forget` finds nothing left to undo
      have hnone : (w.convs.unlink v).conversation l = none := by
        rw [hcv, if_pos hu]
      have hfui : ((w.convs.unlink v).forget l).uiNick = (w.convs.unlink v).uiNick := by
        simp [Convs.forget, Convs.putConversation, Convs.unpair, hnone]
      refine ⟨?_, ?_, ?_, ?_, ?_, ?_, ?_⟩
      · change ((w.convs.unlink v).forget l).uiNick v = none
        rw [hfui, hui]
      · intro m
        change ((w.convs.unlink v).forget l).conversation m = _
        rw [Convs.forget_conversation, hcv, hu]
        rcases eq_or_ne m l with rfl | hne
        · simp
        · simp [hne, hne.symm]
      · exact (Convs.sameIm_unlink _ _).trans (Convs.sameIm_forget _ _)
      · rw [heq]
        rfl
      · rw [heq]
        rfl
      · intro m hm hlive
        rw [heq]
        exact Nicks.dropped_alive.mpr ⟨fun he => hm (hu.trans (congrArg some he.symm)), hlive⟩
      · intro m hm hlive
        rw [heq]
        refine Nicks.dropped_alive.mpr ⟨?_, hlive⟩
        rintro rfl
        rw [hm] at hkind
        cases hkind
    · exact hkeep

/-- A nick that a conversation does not name any more: `setConversation` only clears its end. -/
theorem setConversation_none {V : Convs} {kind : NickKind} {l : NickRef}
    (hu : V.uiNick v ≠ some l) (hc : V.conversation l = some v) :
    V.setConversation kind l none = V.putConversation l none := by
  unfold Convs.setConversation Convs.unpair
  rw [hc]
  dsimp only
  rw [if_neg hu]
  split <;> rfl

theorem setNick_eq (hw : w.Ok none) (hx : ∀ l, w.convs.uiNick v = some l → x ≠ some l) :
    w.setNick v x = { w.dismiss v with convs := (w.dismiss v).convs.setUiNick v x } := by
  unfold setNick dismiss
  cases hu : w.convs.uiNick v with
  | none =>
    simp [Convs.unlink, Convs.release, hu, Convs.setUiNick]
  | some l =>
    obtain ⟨ha, hk⟩ := hw.uiNick_ok hu
    have hc := (hw.paired.pair v l).mp hu
    have hxl : (w.convs.setUiNick v x).uiNick v ≠ some l := by
      simp only [Convs.setUiNick, update_self]
      exact hx l hu
    have hrel : w.convs.release v = w.convs.putConversation l none := by
      simp [Convs.release, hu]
    dsimp only
    rw [if_neg (hx l hu)]
    split
    · rw [removeNick_convs w (w.convs.setUiNick v x), removeNick_convs w (w.convs.unlink v),
        hw.removeNick_found ha hk]
      dsimp only
      congr 1
      have hnone : (w.convs.unlink v).conversation l = none := by
        rw [Convs.unlink_conversation, if_pos hu]
      have hforget : (w.convs.setUiNick v x).forget l =
          { (w.convs.setUiNick v x).putConversation l none with
            queue := update w.convs.queue l [] } := by
        unfold Convs.forget Convs.unpair
        rw [show (w.convs.setUiNick v x).conversation l = some v from hc]
        dsimp only
        rw [if_neg hxl]
        rfl
      have hforget' : (w.convs.unlink v).forget l =
          { (w.convs.unlink v).putConversation l none with
            queue := update w.convs.queue l [] } := by
        unfold Convs.forget Convs.unpair
        rw [hnone]
        unfold Convs.unlink
        rw [hrel]
        rfl
      rw [hforget, hforget', Convs.unlink, hrel]
      simp [Convs.setUiNick, Convs.putConversation]
    · rw [setConversation_none hxl hc, Convs.unlink, hrel]
      simp [Convs.setUiNick, Convs.putConversation]

theorem Ok.not_uiNick (hw : w.Ok none) (hne : w.convs.conversation n ≠ some v) :
    ∀ l, w.convs.uiNick v = some l → some n ≠ some l := by
  intro l hu he
  obtain rfl := Option.some.inj he
  exact hne ((hw.paired.pair v n).mp hu)

/-- The nick that the conversation had goes, then the new one comes. -/
theorem pairUp_eq (hw : w.Ok none) (hne : w.convs.conversation n ≠ some v) :
    w.pairUp n v = { w.dismiss v with
      convs := (w.dismiss v).convs.link ((w.dismiss v).nicks.kind n) n v } := by
  unfold pairUp
  rw [setNick_eq hw (hw.not_uiNick hne)]
  simp [setConversation, Convs.link, Convs.release, (dismissed hw v).uiNick]

theorem pairUp_goes (hw : w.Ok none) (hn : w.nicks.alive n = true)
    (hconv : (w.nicks.kind n).isConvNick = true) (hv : w.convs.isIm v)
    (hne : w.convs.conversation n ≠ some v)
    (hk : w.nicks.kind n = .buddy ∨ w.convs.conversation n = none)
    (hfit : T.fair → w.Fits P n v) : Goes P T w (w.pairUp n v) := by
  have hnot := hw.not_uiNick hne
  have hd := dismissed hw v
  have hstep := dismiss_goes (P := P) (T := T) hw v
  have hold : (w.dismiss v).convs.conversation n = w.convs.conversation n := by
    rw [hd.conversation, if_neg fun hu => hnot n hu rfl]
  have hdef := pairUp_eq hw hne
  rw [hdef]
  refine hstep.trans (Change.link _ n v ?_ ?_ ?_ ?_ ?_ ?_).goes
  · exact hd.alive n (fun hu => hnot n hu rfl) hn
  · rw [hd.kind]
    exact hconv
  · rw [Convs.isIm, hd.sameIm]
    exact hv
  · rw [hold]
    exact hne
  · rw [hold, hd.kind]
    exact hk
  · intro hT hkind
    rw [hd.kind] at hkind
    rw [hd.sameIm, hd.buddy]
    exact hfit hT hkind

theorem pairUp_conversation : (w.pairUp n v).convs.conversation n = some v := by
  unfold pairUp setConversation
  exact Convs.setConversation_conversation.trans (if_pos rfl)

/-- `Conversation::destroy` undoes the pairing first, so that no nick is left to be found. -/
theorem destroyIm_goes (hw : w.Ok none) (hv : w.convs.isChat v = false) :
    Goes P T w (w.destroyIm v) := by
  have hd := dismissed hw v
  have hstep := dismiss_goes (P := P) (T := T) hw v
  have hok := hstep.ok hw
  have hset : w.setNick v none = w.dismiss v := by
    rw [setNick_eq (x := none) hw fun l _ => nofun]
    have : (w.dismiss v).convs.setUiNick v none = (w.dismiss v).convs := by
      rw [Convs.setUiNick, ← hd.uiNick, update_eq_self]
    rw [this]
  have hfind : (w.dismiss v).getNickOfConv v = none := by
    unfold getNickOfConv
    rw [List.find?_eq_none]
    intro n _ hn
    simp only [decide_eq_true_eq] at hn
    have := (hok.paired.pair v n).mpr hn.2
    rw [hd.uiNick] at this
    cases this
  have hui : (w.dismiss v).convs.uiChan v = none := by
    cases hu : (w.dismiss v).convs.uiChan v with
    | none => rfl
    | some c =>
      have hchat := (hok.chats.bwd v c hu).2.2.2
      rw [hd.sameIm] at hchat
      rw [show w.convs.isChat v = true from hchat] at hv
      cases hv
  unfold destroyIm
  rw [hset]
  dsimp only
  rw [hfind]
  have hend := Change.ended (P := P) (T := T) (w.dismiss v) v hui hd.uiNick
  have heq : update (w.dismiss v).convs.uiChan v none = (w.dismiss v).convs.uiChan := by
    rw [← hui, update_eq_self]
  rw [heq] at hend
  exact hstep.trans hend.goes

section Send

/-- What `imConversation` returns: an IM conversation of the account and the name. -/
theorem imConversation_spec (w : World) (a : AccountRef) (name : Str) :
    Goes P T w { w with convs := (w.convs.imConversation a name).2 } ∧
      (w.convs.imConversation a name).2.isIm (w.convs.imConversation a name).1 ∧
      (w.convs.imConversation a name).2.account (w.convs.imConversation a name).1 = a ∧
      (w.convs.imConversation a name).2.name (w.convs.imConversation a name).1 = name ∧
      (w.convs.imConversation a name).2.conversation = w.convs.conversation := by
  unfold Convs.imConversation
  split
  · next v hv =>
    have hf := List.find?_some hv
    simp only [Bool.and_eq_true, Bool.not_eq_true', beq_iff_eq] at hf
    exact ⟨.refl w, ⟨hf.1.1.1, hf.1.1.2⟩, hf.1.2, hf.2, rfl⟩
  · refine ⟨(Change.newIm w a name).goes, ?_, ?_, ?_, rfl⟩ <;> simp [Convs.newConv, Convs.isIm]

/-- The nick of a contact stays, whatever other nick its conversation had. -/
structure Spoken (w w' : World) (n : NickRef) : Prop where
  kind : w'.nicks.kind = w.nicks.kind
  buddies : ∀ m, w.nicks.kind m = .buddy → w.nicks.alive m = true → w'.nicks.alive m = true

theorem checkConv_goes (a : AccountRef) (name : Str) (hw : w.Ok none) (hn : w.nicks.alive n = true)
    (hconv : (w.nicks.kind n).isConvNick = true)
    (hfit : w.nicks.kind n = .buddy →
      a = P.buddyAccount (w.nicks.buddy n) ∧ name = P.buddyName (w.nicks.buddy n)) :
    Goes P T w (w.checkConv n a name) ∧ Spoken w (w.checkConv n a name) n := by
  unfold checkConv
  split
  · exact ⟨.refl w, rfl, fun _ _ h => h⟩
  · next hnone =>
    obtain ⟨hstep, him, ha, hname, hc⟩ := imConversation_spec (P := P) (T := T) w a name
    have hok := hstep.ok hw
    have hcn : (w.convs.imConversation a name).2.conversation n = none := by
      rw [hc]
      simpa using hnone
    dsimp only
    have hnot : ∀ l, (w.convs.imConversation a name).2.uiNick (w.convs.imConversation a name).1 =
        some l → some n ≠ some l := by
      intro l hu he
      obtain rfl := Option.some.inj he
      rw [(hok.paired.pair _ n).mp hu] at hcn
      cases hcn
    refine ⟨hstep.trans (pairUp_goes hok hn hconv him (by rw [hcn]; nofun) (.inr hcn) ?_), ?_⟩
    · intro _ hk
      exact ⟨ha.trans (hfit hk).1, hname.trans (hfit hk).2⟩
    · have hd := dismissed hok (w.convs.imConversation a name).1
      unfold pairUp
      rw [setNick_eq hok hnot]
      exact ⟨hd.kind, hd.buddies⟩

theorem enqueueMessage_goes (h : w.enqueueMessage n text = some w') :
    Goes P T w w' ∧ w'.nicks = w.nicks := by
  unfold enqueueMessage at h
  split at h
  · obtain ⟨v, hv, rfl⟩ := Option.map_eq_some_iff.mp h
    exact ⟨(Change.replied w n v hv w.convs.queue).goes, rfl⟩
  · obtain rfl := Option.some.inj h
    exact ⟨(Change.queued w _).goes, rfl⟩

theorem buddySend_goes (hw : w.Ok none) (hn : w.nicks.alive n = true)
    (hk : w.nicks.kind n = .buddy) (h : w.buddySend P n text = some w') :
    Goes P T w w' ∧ Spoken w w' n := by
  obtain ⟨hstep, hs⟩ := checkConv_goes (P := P) (T := T) (P.buddyAccount (w.nicks.buddy n))
    (P.buddyName (w.nicks.buddy n)) hw hn (by rw [hk]; rfl) fun _ => ⟨rfl, rfl⟩
  obtain ⟨hq, hnicks⟩ := enqueueMessage_goes (P := P) (T := T) h
  refine ⟨hstep.trans hq, ?_, ?_⟩
  · rw [hnicks, hs.kind]
  · intro m hm hlive
    rw [hnicks]
    exact hs.buddies m hm hlive

theorem tellUser_goes {msg : Message} (h : msg.cmd ∉ viewCmds) : Goes P T w (w.tellUser msg) := by
  have := Change.say (P := P) (T := T) w none [.msg msg] (by simpa [Sent.Quiet] using h)
  have heq : w.tellUser msg = { w with chans := { w.chans with
      sent := w.chans.sent ++ [.msg msg] } } := by
    unfold tellUser
    rw [Chans.send_eq, if_pos rfl]
  rw [heq]
  exact this.goes

theorem tellChan_goes {msg : Message} (h : msg.cmd ∉ viewCmds) (c : ChanRef) :
    Goes P T w (w.tellChan c msg) := by
  unfold tellChan
  rw [Chans.broadcast_eq]
  refine (Change.say w none _ ?_).goes
  intro s hs
  rw [(List.mem_replicate.mp hs).2]
  exact h

theorem privmsg_quiet : str "PRIVMSG" ∉ viewCmds := by decide

theorem nickSend_goes (hw : w.Ok none) (hn : w.nicks.alive n = true) {dcc : Bool}
    (h : w.nickSend P n text dcc = some w') : Goes P T w w' := by
  unfold nickSend at h
  cases hk : w.nicks.kind n with
  | user =>
    simp only [hk, Option.some.injEq] at h
    exact h ▸ tellUser_goes privmsg_quiet
  | buddy =>
    simp only [hk] at h
    split at h
    · exact Option.some.inj h ▸ .refl w
    · exact (buddySend_goes hw hn hk h).1
  | chatBuddy =>
    simp only [hk] at h
    obtain ⟨hstep, -⟩ := checkConv_goes (P := P) (T := T) (P.cbAccount (w.nicks.cbuddy n))
      (P.cbRealName (w.nicks.cbuddy n)) hw hn
      (by rw [hk]; rfl) (by rw [hk]; nofun)
    exact hstep.trans (enqueueMessage_goes h).1
  | unknownBuddy =>
    simp only [hk] at h
    split at h
    · exact (enqueueMessage_goes h).1
    · exact Option.some.inj h ▸ .refl w
  | requestNick | buddyIcon =>
    simp only [hk, Option.some.injEq] at h
    exact h ▸ .refl w

/-- The members that are left in the loop are still there, as far as they may be sent to. -/
theorem channelSend_goes {l : List NickRef} {dcc : Bool} (hw : w.Ok none)
    (hl : ∀ n ∈ l, w.nicks.kind n = .buddy → w.nicks.alive n = true)
    (h : l.foldlM (fun w n =>
      if n = userRef then some w else channelSend P w n text dcc) w = some w') :
    Goes P T w w' := by
  induction l generalizing w with
  | nil =>
    obtain rfl := Option.some.inj h
    exact .refl w
  | cons n l ih =>
    obtain ⟨w₁, h₁, hrest⟩ := Option.bind_eq_some_iff.mp (by simpa using h)
    have hstep : Goes P T w w₁ ∧ Spoken w w₁ n := by
      split at h₁
      · exact Option.some.inj h₁ ▸ ⟨.refl w, rfl, fun _ _ h => h⟩
      · unfold channelSend at h₁
        split at h₁
        · next hc => exact buddySend_goes hw (hl n (by simp) hc.1) hc.1 h₁
        · exact Option.some.inj h₁ ▸ ⟨.refl w, rfl, fun _ _ h => h⟩
    obtain ⟨hgo, hs⟩ := hstep
    refine hgo.trans (ih (hgo.ok hw) ?_ hrest)
    intro m hm hk
    rw [hs.kind] at hk
    exact hs.buddies m hk (hl m (by simp [hm]) hk)

theorem privmsg_goes (hw : w.Ok none) {target : Str} {dcc : Bool}
    (h : w.privmsg P target text dcc = some w') : Goes P T w w' := by
  unfold privmsg at h
  split at h
  · split at h
    · exact Option.some.inj h ▸ .refl w
    · next c hc =>
      split at h
      · exact Option.some.inj h ▸ .refl w
      · refine channelSend_goes hw ?_ h
        intro n hn _
        obtain ⟨cu, hcu, rfl⟩ := List.mem_map.mp hn
        exact (hw.placed.ne_nil hw.member hcu).1
  · split at h
    · exact Option.some.inj h ▸ .refl w
    · next n hn =>
      obtain ⟨k, hmem, -⟩ := Nicks.getNick_eq_some hn
      exact nickSend_goes hw (hw.table.live k n hmem) h

theorem flush_goes (h : w.flush n = some w') : Goes P T w w' := by
  unfold flush at h
  split at h
  · exact Option.some.inj h ▸ .refl w
  · obtain ⟨v, hv, rfl⟩ := Option.map_eq_some_iff.mp h
    exact (Change.replied w n v hv _).goes

end Send

section Receive

theorem showLines_goes (hc : w.convs.conversation n = some v) (text : Str) (action : Bool) :
    Goes P T w (w.showLines n v text action) := by
  unfold showLines
  generalize stringtokLoop ['\n', '\r'] (text.length + 1) text = lines
  induction lines generalizing w with
  | nil => exact .refl w
  | cons line lines ih =>
    rw [List.foldl_cons]
    refine ((tellUser_goes ?_).trans (Change.showed _ n v ?_).goes).trans (ih ?_)
    · exact privmsg_quiet
    · exact hc
    · exact hc

theorem recvChat_goes (w : World) (c : ChanRef) (sender text : Str) (action : Bool) :
    Goes P T w (w.recvChat P c sender text action) := by
  unfold recvChat
  dsimp only
  generalize stringtokLoop ['\n', '\r'] (text.length + 1) text = lines
  suffices h : ∀ (who : StoredEntity) (w' : World), Goes P T w' (lines.foldl (fun w line =>
      w.tellChan c ⟨str "PRIVMSG", who, w.chans.chanEntity c,
        [if action then str "\x01ACTION " ++ line ++ ['\x01'] else line]⟩) w') from h _ w
  intro who
  induction lines with
  | nil => exact fun w => .refl w
  | cons line lines ih =>
    intro w
    rw [List.foldl_cons]
    exact (tellChan_goes privmsg_quiet c).trans (ih _)

end Receive

end World
end Minbif

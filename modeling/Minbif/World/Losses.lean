import Minbif.World.Displaced

/-! Which events take the conversation of a nick or a chat. -/
namespace Minbif
open Function
namespace World

variable {P : Purple} {w w' : World} {D : EntityRef → Prop} {e : EntityRef} {n : NickRef}
  {c : ChanRef} {v : ConvRef} {cu : ChanUserRef} {a : AccountRef} {text : Str}

section Kept

theorem flush_spares (h : w.flush n = some w') : Spares D w w' := by
  unfold flush at h
  split at h
  · exact Option.some.inj h ▸ fun _ he _ => he
  · obtain ⟨v, -, rfl⟩ := Option.map_eq_some_iff.mp h
    exact .same rfl rfl

theorem updated_convs (P : Purple) (w : World) (b : BuddyRef) : (w.updated P b).convs = w.convs := by
  unfold updated
  dsimp only
  repeat' split
  all_goals rfl

theorem foldl_convs {α : Type} {f : World → α → World} (hf : ∀ w a, (f w a).convs = w.convs)
    (l : List α) (w : World) : (l.foldl f w).convs = w.convs := by
  induction l generalizing w with
  | nil => rfl
  | cons a l ih =>
    rw [List.foldl_cons, ih]
    exact hf w a

theorem openStatusChannel_convs (w : World) (a : AccountRef) :
    (w.openStatusChannel a).1.convs = w.convs := by
  unfold openStatusChannel
  split <;> rfl

theorem createStatusChannel_convs (P : Purple) (w : World) (a : AccountRef) :
    (w.createStatusChannel P a).convs = w.convs := by
  unfold createStatusChannel
  split
  · rfl
  · dsimp only
    rw [foldl_convs (fun w b => updated_convs P w b)]
    exact openStatusChannel_convs w a

theorem startUp_convs (P : Purple) (w : World) (accounts : List AccountRef) :
    (w.startUp P accounts).convs = w.convs := by
  have h := foldl_convs (fun w a => createStatusChannel_convs P w a) accounts { w with started := true }
  exact h

theorem setAlias_convs (P : Purple) (w : World) (b : BuddyRef) (nickname : Str) :
    (w.setAlias P b nickname).convs = w.convs := updated_convs P _ b

theorem updateNode_convs (P : Purple) (w : World) (b : BuddyRef) :
    (w.updateNode P b).convs = w.convs := by
  have hfinish : ∀ (w : World) (n : NickRef), ((if w.getAlias P b = w.nicks.nickname n then w
      else w.setAlias P b (w.nicks.nickname n)).updated P b).convs = w.convs := by
    intro w n
    rw [updated_convs]
    split
    · rfl
    · exact setAlias_convs P w b _
  unfold updateNode
  dsimp only
  split
  · exact hfinish w _
  · split
    · rfl
    · exact hfinish (w.newBuddy P b _) _

theorem addBuddy_convs {cb : CBuddyRef} (h : w.addBuddy P c cb = some w') : w'.convs = w.convs := by
  unfold addBuddy at h
  dsimp only at h
  split at h
  · obtain ⟨cu, -, rfl⟩ := Option.map_eq_some_iff.mp h
    rfl
  split at h
  · exact Option.some.inj h ▸ rfl
  · obtain ⟨w₁, hnew, h⟩ := Option.bind_eq_some_iff.mp h
    obtain ⟨cu, -, rfl⟩ := Option.map_eq_some_iff.mp h
    unfold newChatBuddy at hnew
    obtain ⟨s, -, rfl⟩ := Option.map_eq_some_iff.mp hnew
    rfl

theorem addUsers_convs {l : List CBuddyRef} (h : l.foldlM (fun w cb =>
      match w.chatChan v with
      | some c => w.addBuddy P c cb
      | none => some w) w = some w') : w'.convs = w.convs := by
  induction l generalizing w with
  | nil => exact Option.some.inj h ▸ rfl
  | cons cb l ih =>
    obtain ⟨w₁, h₁, hrest⟩ := Option.bind_eq_some_iff.mp (by simpa using h)
    rw [ih hrest]
    split at h₁
    · exact addBuddy_convs h₁
    · exact Option.some.inj h₁ ▸ rfl

theorem renameBuddy_convs {cb : CBuddyRef} (h : w.renameBuddy P c cu cb = some w') :
    w'.convs = w.convs := by
  unfold renameBuddy at h
  dsimp only at h
  split at h
  · cases h
  · obtain rfl := Option.some.inj h
    change (ite _ _ _ : World).convs = _
    split <;> rfl

theorem setTopic_convs (w : World) (c : ChanRef) (who : StoredEntity) (topic : Str) :
    (w.setTopic c who topic).convs = w.convs := by
  unfold setTopic
  dsimp only
  split <;> rfl

theorem svsnick_convs (P : Purple) (w : World) (nick newnick : Str) :
    (w.svsnick P nick newnick).convs = w.convs := by
  unfold svsnick
  split
  · rfl
  split
  · rfl
  · exact setAlias_convs P _ _ _

theorem leaveStatusChannel_spares (hw : w.Ok none) (a : AccountRef) :
    Spares D w (w.leaveStatusChannel a) := by
  unfold leaveStatusChannel
  split
  · exact fun _ he _ => he
  · next c hc =>
    obtain ⟨hlive, hv⟩ := hw.getStatusChannel hc
    dsimp only
    generalize hset : w.setAccounts c ((w.chans.accounts c).erase a) = w₀
    have hok₀ : w₀.Ok none := by
      rw [← hset]
      exact (setAccounts_goes (P := noPurple) (T := w.terms noPurple .welcome) w c _).ok hw
    have hstep : Spares D w w₀ := by
      rw [← hset]
      exact .of_convs rfl
    have hlive₀ : w₀.chans.alive c = true := by rw [← hset]; exact hlive
    have hv₀ : w₀.chans.conv c = none := by rw [← hset]; exact hv
    let I : World → Prop := fun w' => Holds w₀ w' ∧ Spares D w₀ w'
    have hpart : ∀ w' b, b ∈ w₀.data.buddies a → w'.Ok none → I w' →
        Goes noPurple (w.terms noPurple .welcome) w' (partStatusChannel c w' b) ∧
          I (partStatusChannel c w' b) := by
      rintro w' b - hw' ⟨hh, hspares⟩
      have hv' := (congrFun hh.conv c).trans hv₀
      obtain ⟨hgo, hh'⟩ := partStatusChannel_goes (P := noPurple) (T := w.terms noPurple .welcome)
        hw' hv' b
      refine ⟨hgo, hh.trans hh', hspares.trans ?_⟩
      unfold partStatusChannel
      split
      · next n _ =>
        refine (part_spares hw' n c _).mono fun e he => ?_
        rw [Leaving, hv'] at he
        cases he.2.1
      · exact fun _ he _ => he
    obtain ⟨hgo, hh, hspares⟩ := Goes.foldl hpart hok₀ ⟨.refl w₀, fun _ he _ => he⟩
    generalize (w₀.data.buddies a).foldl (partStatusChannel c) w₀ = w₁ at hgo hh hspares
    have hv₁ := (congrFun hh.conv c).trans hv₀
    have hempty : w₁.emptied c = w₁ := by
      unfold emptied
      rw [hv₁]
      rfl
    split
    · rw [removeChannel_eq (hgo.ok hok₀) ((congrFun hh.alive c).trans hlive₀)
        (by rw [hempty]; exact .refl w₁), hempty]
      exact (hstep.trans hspares).trans (.of_convs rfl)
    · exact hstep.trans hspares

end Kept

/-- The event takes the conversation of the entity, or deletes it. -/
def Loses (P : Purple) (w : World) (e : EntityRef) : Op → Prop
  | .disconnected a left => w.LeftWith a left e ∨ w.OnServer (w.data.servername a) e
  | .removedNode b => (w.nickOfBuddy b).map .nick = some e
  | .kick channame nick _ => (w.kicks channame nick).map .nick = some e
  | .kill nick _ => (w.kills nick).map .nick = some e
  | .deleteConversation v => w.convs.alive v = true ∧
    if w.convs.isChat v then ∃ c ∈ w.convs.uiChan v, w.InChat c e else w.HadBy v e
  | .part channame _ => ∃ c ∈ w.chans.getChannel channame, w.Leaving userRef c e
  | .removeUser v name _ => ∃ c ∈ w.chatChan v, ∃ cu ∈ w.chanUserNamed P c name,
    w.Leaving (w.chans.cuNick cu) c e
  -- the nick that is written to has no conversation, and libpurple gives it that of another
  | .privmsg target text dcc => ∃ n ∈ w.addressees target text dcc, w.Displaces P n e
  | _ => False

theorem registered_spares (hw : w.Ok none) (hnamed : w.nicks.Named) {op : Op}
    (h : w.runRegistered P op = some w') : Spares (fun e => w.Loses P e op) w w' := by
  cases op with
  | data _ | nick _ | startUp _ | welcome => exact Option.some.inj h ▸ fun _ he _ => he
  | connected a => exact Option.some.inj h ▸ .of_convs rfl
  | disconnected a left =>
    obtain rfl := Option.some.inj h
    obtain ⟨hfewer, hspares⟩ := leaveChats_spares hw a left
    refine (hspares.mono fun e he => .inl he).trans ((removeServer_spares _ _).mono ?_)
    intro e he
    cases e with
    | nick n =>
      change _ = some ((w.leaveChats a left).nicks.server n) at he
      rw [hfewer.servers, hfewer.data, hfewer.server] at he
      exact .inr he
    | chan c => exact he.elim
  | createStatusChannel a =>
    exact Option.some.inj h ▸ .of_convs (createStatusChannel_convs P w a)
  | leaveStatusChannel a => exact Option.some.inj h ▸ leaveStatusChannel_spares hw a
  | updateNode b => exact Option.some.inj h ▸ .of_convs (updateNode_convs P w b)
  | buddyUpdated b => exact Option.some.inj h ▸ .of_convs (updated_convs P w b)
  | removedNode b => exact Option.some.inj h ▸ removedNode_spares hw b
  | newConversation a name => exact Option.some.inj h ▸ imConversation_spares hw a name
  | recvMessage v sender text action =>
    simp only [runRegistered] at h
    split at h
    · exact recvMessage_spares hw h
    · exact Option.some.inj h ▸ fun _ he _ => he
  | privmsg target text dcc => exact (privmsg_types hw hnamed h).spares
  | flush n =>
    simp only [runRegistered] at h
    split at h
    · exact flush_spares h
    · exact Option.some.inj h ▸ fun _ he _ => he
  | deleteConversation v =>
    simp only [runRegistered] at h
    split at h
    · exact Option.some.inj h ▸ fun _ he _ => he
    · next ha =>
      rw [Bool.not_eq_true', ← Bool.not_eq_true, not_not] at ha
      split at h
      · next hchat =>
        obtain rfl := Option.some.inj h
        refine (destroyChat_spares hw v).2.mono fun e he => ⟨ha, ?_⟩
        rwa [if_pos hchat]
      · next hchat =>
        obtain rfl := Option.some.inj h
        refine (destroyIm_spares hw v).mono fun e he => ⟨ha, ?_⟩
        rwa [if_neg hchat]
  | newChat a name =>
    obtain rfl := Option.some.inj h
    exact newConv_spares hw true a name (some w.chans.next)
  | addUsers v l => exact .of_convs (addUsers_convs h)
  | updateUser v cb =>
    simp only [runRegistered] at h
    split at h
    · obtain ⟨cu, -, rfl⟩ := Option.map_eq_some_iff.mp h
      exact .of_convs rfl
    · exact Option.some.inj h ▸ fun _ he _ => he
  | removeUser v name reason =>
    simp only [runRegistered] at h
    split at h
    · next c hc =>
      split at h
      · next cu hcu =>
        obtain rfl := Option.some.inj h
        exact (part_spares hw _ c reason).mono fun e he => ⟨c, hc, cu, hcu, he⟩
      · exact Option.some.inj h ▸ fun _ he _ => he
    · exact Option.some.inj h ▸ fun _ he _ => he
  | renameUser v old cb =>
    simp only [runRegistered] at h
    split at h
    · obtain ⟨cu, -, h⟩ := Option.bind_eq_some_iff.mp h
      exact .of_convs (renameBuddy_convs h)
    · exact Option.some.inj h ▸ fun _ he _ => he
  | topicChanged v who topic =>
    simp only [runRegistered] at h
    split at h
    · exact Option.some.inj h ▸ .of_convs (setTopic_convs w _ _ topic)
    · exact Option.some.inj h ▸ fun _ he _ => he
  | join channame =>
    simp only [runRegistered] at h
    split at h
    · exact Option.some.inj h ▸ fun _ he _ => he
    split at h
    · exact Option.some.inj h ▸ .of_convs rfl
    · exact Option.some.inj h ▸ fun _ he _ => he
  | part channame reason =>
    simp only [runRegistered] at h
    split at h
    · next c hc =>
      obtain rfl := Option.some.inj h
      exact (part_spares hw userRef c reason).mono fun e he => ⟨c, hc, he⟩
    · exact Option.some.inj h ▸ fun _ he _ => he
  | kick channame nick reason => exact Option.some.inj h ▸ kick_spares hw channame nick reason
  | kill nick reason => exact Option.some.inj h ▸ kill_spares hw nick reason
  | svsnick nick newnick => exact Option.some.inj h ▸ .of_convs (svsnick_convs P w nick newnick)
  | names channame =>
    simp only [runRegistered] at h
    split at h
    · exact Option.some.inj h ▸ .of_convs rfl
    · exact Option.some.inj h ▸ fun _ he _ => he
  | dccSend b => exact Option.some.inj h ▸ .of_convs rfl
  | dccGet n =>
    simp only [runRegistered] at h
    split at h
    · exact Option.some.inj h ▸ .of_convs rfl
    · exact Option.some.inj h ▸ fun _ he _ => he
  | dccFinished i => exact Option.some.inj h ▸ .of_convs rfl
  | dccUpdated => exact Option.some.inj h ▸ .of_convs rfl

/-- An event leaves an entity its conversation unless it is one of those that take it. -/
theorem run_spares (hw : w.Ok none) (hnamed : w.nicks.Named) {op : Op} (h : w.run P op = some w') :
    Spares (fun e => w.registered = true ∧ w.Loses P e op) w w' := by
  unfold run at h
  split at h
  · exact Option.some.inj h ▸ .of_convs rfl
  · split at h
    · exact Option.some.inj h ▸ fun _ he _ => he
    · exact Option.some.inj h ▸ .of_convs rfl
  · next accounts =>
    split at h
    · exact Option.some.inj h ▸ fun _ he _ => he
    · exact Option.some.inj h ▸ .of_convs (startUp_convs P w accounts)
  · exact Option.some.inj h ▸ .of_convs rfl
  · split at h
    · exact Option.some.inj h ▸ fun _ he _ => he
    · next hreg =>
      rw [Bool.not_eq_true', ← Bool.not_eq_true, not_not] at hreg
      exact (registered_spares hw hnamed h).mono fun e he => ⟨hreg, he⟩

instance (w : World) (c : ChanRef) : DecidablePred (w.InChat c)
  | .nick _ => inferInstanceAs (Decidable (_ ∧ _))
  | .chan _ => inferInstanceAs (Decidable (_ = _))

instance (w : World) (v : ConvRef) : DecidablePred (w.HadBy v)
  | .nick _ => inferInstanceAs (Decidable (_ = _))
  | .chan _ => inferInstanceAs (Decidable False)

instance (w : World) (name : Str) : DecidablePred (w.OnServer name)
  | .nick _ => inferInstanceAs (Decidable (_ = _))
  | .chan _ => inferInstanceAs (Decidable False)

instance (w : World) (a : AccountRef) (left : List ConvRef) : DecidablePred (w.LeftWith a left) :=
  fun _ => inferInstanceAs (Decidable (∃ v ∈ left, _))

instance (w : World) (n : NickRef) (c : ChanRef) : DecidablePred (w.Leaving n c) :=
  fun _ => inferInstanceAs (Decidable (_ ∧ _))

instance (P : Purple) (w : World) (n : NickRef) : DecidablePred (w.Displaces P n) :=
  fun _ => inferInstanceAs (Decidable (∃ v ∈ w.found P n, _))

instance (P : Purple) (w : World) (e : EntityRef) : DecidablePred (w.Loses P e)
  | .disconnected a left =>
    inferInstanceAs (Decidable (w.LeftWith a left e ∨ w.OnServer (w.data.servername a) e))
  | .removedNode b => inferInstanceAs (Decidable ((w.nickOfBuddy b).map .nick = some e))
  | .kick channame nick _ => inferInstanceAs (Decidable ((w.kicks channame nick).map .nick = some e))
  | .kill nick _ => inferInstanceAs (Decidable ((w.kills nick).map .nick = some e))
  | .deleteConversation v => inferInstanceAs (Decidable (w.convs.alive v = true ∧
      if w.convs.isChat v then ∃ c ∈ w.convs.uiChan v, w.InChat c e else w.HadBy v e))
  | .part channame _ =>
    inferInstanceAs (Decidable (∃ c ∈ w.chans.getChannel channame, w.Leaving userRef c e))
  | .removeUser v name _ => inferInstanceAs (Decidable (∃ c ∈ w.chatChan v,
      ∃ cu ∈ w.chanUserNamed P c name, w.Leaving (w.chans.cuNick cu) c e))
  | .privmsg target text dcc =>
    inferInstanceAs (Decidable (∃ n ∈ w.addressees target text dcc, w.Displaces P n e))
  | .data _ | .nick _ | .startUp _ | .welcome | .connected _ | .createStatusChannel _
  | .leaveStatusChannel _ | .updateNode _ | .buddyUpdated _ | .newConversation _ _
  | .recvMessage _ _ _ _ | .flush _ | .newChat _ _ | .addUsers _ _ | .updateUser _ _
  | .renameUser _ _ _ | .topicChanged _ _ _ | .join _ | .svsnick _ _ | .names _ | .dccSend _
  | .dccGet _ | .dccFinished _ | .dccUpdated => inferInstanceAs (Decidable False)

end World
end Minbif

import Minbif.World.Deletions
import Minbif.World.Enqueued

/-! From which nick a conversation is taken, and for which one a text is enqueued. -/
namespace Minbif
open Function
namespace World

variable {P : Purple} {w w' : World} {D : EntityRef → Prop} {e : EntityRef} {n : NickRef}
  {c : ChanRef} {v : ConvRef} {cu : ChanUserRef} {a : AccountRef} {text : Str}

section Conversation

/-- The nick that a conversation is taken from. -/
def HadBy (w : World) (v : ConvRef) : EntityRef → Prop
  | .nick n => w.convs.conversation n = some v
  | .chan _ => False

theorem dismissed_spares (hd : Dismissed w w' v) (hw : w.Ok none) : Spares (w.HadBy v) w w' := by
  intro e he hne
  cases e with
  | nick n =>
    have hn : ¬ w.convs.uiNick v = some n := fun hu => hne ((hw.paired.pair v n).mp hu)
    change (w'.convs.conversation n).isSome = true
    rw [hd.conversation, if_neg hn]
    exact he
  | chan c =>
    obtain ⟨u, hu⟩ := he
    exact ⟨u, by rw [hd.sameIm]; exact hu⟩

theorem destroyIm_spares (hw : w.Ok none) (v : ConvRef) : Spares (w.HadBy v) w (w.destroyIm v) := by
  have hd := dismissed hw v
  have hset := setNick_eq (x := none) (v := v) hw fun l _ => nofun
  have hstep : Spares (w.HadBy v) w (w.setNick v none) := by
    rw [hset]
    exact (dismissed_spares hd hw).trans (.same rfl rfl)
  have hconv : (w.setNick v none).convs.conversation = (w.dismiss v).convs.conversation := by
    rw [hset]
    rfl
  unfold destroyIm
  generalize w.setNick v none = w₁ at hstep hconv
  dsimp only
  cases hfind : w₁.getNickOfConv v with
  | none => exact hstep.trans (.same rfl rfl)
  | some n =>
    -- it had the conversation before
    have hn : w.convs.conversation n = some v := by
      have hk := List.find?_some hfind
      simp only [decide_eq_true_eq] at hk
      have hold := hk.2
      rw [hconv, hd.conversation] at hold
      split at hold
      · cases hold
      · exact hold
    refine hstep.trans fun e he hne => ?_
    cases e with
    | nick m =>
      have hmn : m ≠ n := by
        rintro rfl
        exact hne hn
      change ((w₁.convs.setConversation _ n none).conversation m).isSome = true
      rw [Convs.setConversation_conversation, if_neg hmn]
      exact he
    | chan c =>
      obtain ⟨u, hu⟩ := he
      refine ⟨u, ?_⟩
      change (w₁.convs.setConversation _ n none).uiChan u = some c
      rw [Convs.sameIm_setConversation]
      exact hu

/-- The nick that gets a conversation takes it from the one it had. -/
theorem pairUp_spares (hw : w.Ok none) (hne : w.convs.conversation n ≠ some v) :
    Spares (w.HadBy v) w (w.pairUp n v) := by
  have hd := dismissed hw v
  rw [pairUp_eq hw hne]
  refine (dismissed_spares hd hw).trans fun e he _ => ?_
  cases e with
  | nick m =>
    change ((((w.dismiss v).convs).link _ n v).conversation m).isSome = true
    rw [Convs.link_conversation, hd.uiNick]
    split
    · rfl
    · exact he
  | chan c =>
    obtain ⟨u, hu⟩ := he
    refine ⟨u, ?_⟩
    change (((w.dismiss v).convs).link _ n v).uiChan u = some c
    rw [Convs.sameIm_link]
    exact hu

/-- A conversation without a nick is taken from no one. -/
theorem pairUp_new_spares (hu : w.convs.uiNick v = none) : Spares D w (w.pairUp n v) := by
  have hset : w.setNick v (some n) = { w with convs := w.convs.setUiNick v (some n) } := by
    simp [setNick, hu]
  unfold pairUp setConversation
  rw [hset]
  intro e he _
  cases e with
  | nick m =>
    change (((w.convs.setUiNick v (some n)).setConversation _ n (some v)).conversation m).isSome = true
    rw [Convs.setConversation_conversation]
    split
    · rfl
    · exact he
  | chan c =>
    obtain ⟨u, hu⟩ := he
    refine ⟨u, ?_⟩
    change ((w.convs.setUiNick v (some n)).setConversation _ n (some v)).uiChan u = some c
    rw [Convs.sameIm_setConversation]
    exact hu

/-- The reference of a new conversation is that of no chat. -/
theorem Ok.uiChan_ne (hw : w.Ok none) (h : w.convs.uiChan v = some c) : v ≠ w.convs.next :=
  Nat.ne_of_lt (hw.talks.bound v (hw.chats.bwd v c h).2.2.1)

theorem newConv_spares (hw : w.Ok none) (chat : Bool) (a : AccountRef) (name : Str)
    (x : Option ChanRef) : Spares D w { w with convs := { w.convs.newConv chat a name with
      uiChan := update (w.convs.newConv chat a name).uiChan w.convs.next x } } := by
  intro e he _
  cases e with
  | nick m => exact he
  | chan c =>
    obtain ⟨u, hu⟩ := he
    refine ⟨u, ?_⟩
    change update (update w.convs.uiChan w.convs.next none) w.convs.next x u = some c
    rw [update_of_ne (hw.uiChan_ne hu), update_of_ne (hw.uiChan_ne hu)]
    exact hu

theorem imConversation_spares (hw : w.Ok none) (a : AccountRef) (name : Str) :
    Spares D w { w with convs := (w.convs.imConversation a name).2 } := by
  unfold Convs.imConversation
  split
  · exact fun _ he _ => he
  · have h := newConv_spares (D := D) hw false a name none
    simpa [Convs.newConv] using h

end Conversation

section Receive

theorem showLines_spares (w : World) (n : NickRef) (v : ConvRef) (text : Str) (action : Bool) :
    Spares D w (w.showLines n v text action) := by
  unfold showLines
  generalize stringtokLoop ['\n', '\r'] (text.length + 1) text = lines
  induction lines generalizing w with
  | nil => exact fun _ he _ => he
  | cons line lines ih =>
    rw [List.foldl_cons]
    refine Spares.trans ?_ (ih _)
    exact .same rfl rfl

theorem recvChat_spares (w : World) (c : ChanRef) (sender text : Str) (action : Bool) :
    Spares D w (w.recvChat P c sender text action) := by
  unfold recvChat
  dsimp only
  generalize stringtokLoop ['\n', '\r'] (text.length + 1) text = lines
  suffices h : ∀ (who : StoredEntity) (w' : World), Spares D w' (lines.foldl (fun w line =>
      w.tellChan c ⟨str "PRIVMSG", who, w.chans.chanEntity c,
        [if action then str "\x01ACTION " ++ line ++ ['\x01'] else line]⟩) w') from h _ w
  intro who
  induction lines with
  | nil => exact fun _ _ he _ => he
  | cons line lines ih =>
    intro w'
    rw [List.foldl_cons]
    refine Spares.trans ?_ (ih _)
    exact .of_convs rfl

theorem recvNick_spares (hw : w.Ok none) {sender : Str} {r : World × Option NickRef}
    (h : w.recvNick P v sender = some r) : Spares D w r.1 := by
  unfold recvNick at h
  cases hu : w.convs.uiNick v with
  | some n =>
    simp only [hu, Option.some.injEq] at h
    exact h ▸ fun _ he _ => he
  | none =>
    simp only [hu, hw.getNickOfConv hu] at h
    cases hb : w.buddyNamed sender with
    | some n =>
      simp only [hb, Option.some.injEq] at h
      exact h ▸ pairUp_new_spares hu
    | none =>
      simp only [hb] at h
      split at h
      · exact Option.some.inj h ▸ fun _ he _ => he
      · obtain ⟨w₁, hnew, rfl⟩ := Option.map_eq_some_iff.mp h
        unfold newUnknown at hnew
        dsimp only at hnew
        obtain ⟨s, hs, rfl⟩ := Option.map_eq_some_iff.mp hnew
        refine Spares.trans ?_ (pairUp_new_spares hu)
        intro e he _
        cases e with
        | nick m =>
          change (update w.convs.conversation w.nicks.next (some v) m).isSome = true
          rcases eq_or_ne m w.nicks.next with rfl | hne
          · rw [update_self]
            rfl
          · rw [update_of_ne hne]
            exact he
        | chan c => exact he

theorem recvMessage_spares (hw : w.Ok none) {sender : Str} {action : Bool}
    (h : w.recvMessage P v sender text action = some w') : Spares D w w' := by
  unfold recvMessage at h
  split at h
  · obtain rfl := Option.some.inj h
    split
    · exact recvChat_spares w _ sender text action
    · exact fun _ he _ => he
  · obtain ⟨r, hr, rfl⟩ := Option.map_eq_some_iff.mp h
    have hrecv := recvNick_spares (D := D) hw hr
    split
    · exact hrecv.trans (showLines_spares _ _ v text action)
    · exact hrecv

end Receive

section Send

/-- What is typed takes the conversation of entities of `D` only, and whoever's queue it starts has
one. -/
structure Types (D : EntityRef → Prop) (w w' : World) : Prop where
  spares : Spares D w w'
  starts : ∀ n, w.convs.queue n = [] → w'.convs.queue n ≠ [] → w'.convs.Has (.nick n)

theorem Types.refl (w : World) : Types D w w :=
  ⟨fun _ he _ => he, fun _ hnil hne => (hne hnil).elim⟩

/-- The conversation that `check_conv` finds for a nick that has none. -/
def found (P : Purple) (w : World) (n : NickRef) : Option ConvRef :=
  if (w.convs.conversation n).isSome then none
  else
    match w.nicks.kind n with
    | .buddy => w.convs.findIm (P.buddyAccount (w.nicks.buddy n)) (P.buddyName (w.nicks.buddy n))
    | .chatBuddy => w.convs.findIm (P.cbAccount (w.nicks.cbuddy n)) (P.cbRealName (w.nicks.cbuddy n))
    | _ => none

theorem setNick_queue (w : World) (v : ConvRef) (x : Option NickRef) (n : NickRef)
    (h : w.convs.queue n = []) : (w.setNick v x).convs.queue n = [] := by
  have hremove : ∀ (w : World) (k : Str), w.convs.queue n = [] → (w.removeNick k).convs.queue n = [] := by
    intro w k h
    cases hfind : w.nicks.users.find? k with
    | none =>
      unfold removeNick
      rw [hfind]
      exact h
    | some l =>
      rw [removeNick_eq hfind]
      change update w.convs.queue l [] n = []
      rcases eq_or_ne n l with rfl | hne
      · exact update_self ..
      · rwa [update_of_ne hne]
  have hset : ∀ (V : Convs) (kind : NickKind) (l : NickRef) (x : Option ConvRef),
      (V.setConversation kind l x).queue = V.queue := by
    intro V kind l x
    unfold Convs.setConversation Convs.unpair
    repeat' split
    all_goals rfl
  unfold setNick
  dsimp only
  split
  · exact h
  split
  · exact h
  split
  · exact hremove _ _ h
  · exact (congrFun (hset _ _ _ _) n).trans h

theorem checkConv_queue (w : World) (m : NickRef) (a : AccountRef) (name : Str) (n : NickRef)
    (h : w.convs.queue n = []) : (w.checkConv m a name).convs.queue n = [] := by
  unfold checkConv
  split
  · exact h
  · have hnew : (w.convs.imConversation a name).2.queue = w.convs.queue := by
      unfold Convs.imConversation
      split <;> rfl
    dsimp only
    unfold pairUp setConversation
    have hset := setNick_queue { w with convs := (w.convs.imConversation a name).2 }
      (w.convs.imConversation a name).1 (some m) n ((congrFun hnew n).trans h)
    generalize setNick _ _ _ = w₁ at hset
    change (w₁.convs.setConversation _ m _).queue n = []
    unfold Convs.setConversation Convs.unpair
    repeat' split
    all_goals exact hset

theorem checkConv_spares (hw : w.Ok none) (n : NickRef) (a : AccountRef) (name : Str) :
    Spares (fun e => w.convs.conversation n = none ∧
      ∃ v, w.convs.findIm a name = some v ∧ w.HadBy v e) w (w.checkConv n a name) := by
  unfold checkConv
  split
  · exact fun _ he _ => he
  · next hnone =>
    rw [Bool.not_eq_true, Option.isSome_eq_false_iff, Option.isNone_iff_eq_none] at hnone
    dsimp only
    cases hf : w.convs.findIm a name with
    | some v =>
      have him : w.convs.imConversation a name = (v, w.convs) := by
        unfold Convs.imConversation
        rw [hf]
      rw [him]
      refine (pairUp_spares hw (v := v) (by rw [hnone]; nofun)).mono fun e he => ?_
      exact ⟨hnone, v, rfl, he⟩
    | none =>
      have him : w.convs.imConversation a name =
          (w.convs.next, w.convs.newConv false a name) := by
        unfold Convs.imConversation
        rw [hf]
      have hstep := imConversation_spares (D := fun e => w.convs.conversation n = none ∧
        ∃ v, none = some v ∧ w.HadBy v e) hw a name
      rw [him] at hstep ⊢
      exact hstep.trans (pairUp_new_spares (update_self ..))

theorem enqueueMessage_types (hc : (w.convs.conversation n).isSome = true)
    (h : w.enqueueMessage n text = some w') : Types D w w' := by
  unfold enqueueMessage at h
  split at h
  · obtain ⟨v, -, rfl⟩ := Option.map_eq_some_iff.mp h
    exact ⟨.same rfl rfl, fun m hnil hne => (hne hnil).elim⟩
  · obtain rfl := Option.some.inj h
    refine ⟨.same rfl rfl, fun m hnil hne => ?_⟩
    rcases eq_or_ne m n with rfl | hmn
    · exact hc
    · exact (hne ((update_of_ne hmn _ _).trans hnil)).elim

theorem checkConv_types (hw : w.Ok none) {name : Str}
    (h : (w.checkConv n a name).enqueueMessage n text = some w') :
    Types (fun e => w.convs.conversation n = none ∧
      ∃ v, w.convs.findIm a name = some v ∧ w.HadBy v e) w w' := by
  have hsend := enqueueMessage_types (D := fun e => w.convs.conversation n = none ∧
    ∃ v, w.convs.findIm a name = some v ∧ w.HadBy v e) (checkConv_conversation w n a name) h
  exact ⟨(checkConv_spares hw n a name).trans hsend.spares,
    fun m hnil hne => hsend.starts m (checkConv_queue w n a name m hnil) hne⟩

/-- The nick takes the conversation it is sent into from the nick that has it. -/
def Displaces (P : Purple) (w : World) (n : NickRef) (e : EntityRef) : Prop :=
  ∃ v ∈ w.found P n, w.HadBy v e

theorem buddySend_types (hw : w.Ok none) (hk : w.nicks.kind n = .buddy)
    (h : w.buddySend P n text = some w') : Types (w.Displaces P n) w w' := by
  obtain ⟨hspares, hstarts⟩ := checkConv_types hw h
  refine ⟨hspares.mono ?_, hstarts⟩
  rintro e ⟨hnone, v, hv, he⟩
  exact ⟨v, by simpa [found, hnone, hk] using hv, he⟩

theorem nickSend_types (hw : w.Ok none) {dcc : Bool} (h : w.nickSend P n text dcc = some w') :
    Types (fun e => (w.nicks.kind n = .buddy → dcc = false) ∧ w.Displaces P n e) w w' := by
  unfold nickSend at h
  cases hk : w.nicks.kind n with
  | user =>
    simp only [hk, Option.some.injEq] at h
    subst h
    exact ⟨.same rfl rfl, fun _ hnil hne => (hne hnil).elim⟩
  | buddy =>
    simp only [hk] at h
    split at h
    · exact Option.some.inj h ▸ .refl w
    · next hdcc =>
      obtain ⟨hspares, hstarts⟩ := buddySend_types hw hk h
      exact ⟨hspares.mono fun e he => ⟨fun _ => by simpa using hdcc, he⟩, hstarts⟩
  | chatBuddy =>
    simp only [hk] at h
    obtain ⟨hspares, hstarts⟩ := checkConv_types hw h
    refine ⟨hspares.mono ?_, hstarts⟩
    rintro e ⟨hnone, v, hv, he⟩
    exact ⟨nofun, v, by simpa [found, hnone, hk] using hv, he⟩
  | unknownBuddy =>
    simp only [hk] at h
    split at h
    · next hc => exact enqueueMessage_types hc h
    · exact Option.some.inj h ▸ .refl w
  | requestNick | buddyIcon =>
    simp only [hk, Option.some.injEq] at h
    exact h ▸ .refl w

/-- The text is typed to the nick on a status channel. -/
def Hails (w : World) (n : NickRef) (text : Str) (dcc : Bool) : Prop :=
  w.nicks.kind n = .buddy ∧ (w.nicks.nickname n ++ str ": ").isPrefixOf text ∧ ¬ dcc

/-- A text names at most one member. -/
theorem Hails.unique (hw : w.Ok none) (hnamed : w.nicks.Named) {m : NickRef} {dcc : Bool}
    (hn : n ∈ w.chans.members c) (hm : m ∈ w.chans.members c) (h : w.Hails n text dcc)
    (h' : w.Hails m text dcc) : m = n := by
  have hpn := members_present hw hn
  have hpm := members_present hw hm
  have hnn := hnamed n hpn.1 (by rw [h.1]; rfl)
  have hmn := hnamed m hpm.1 (by rw [h'.1]; rfl)
  obtain ⟨r, rfl⟩ := List.isPrefixOf_iff_prefix.mp h.2.1
  exact hw.table.nickname_inj hpm hpn
    (prefix_unique (hmn.not_mem (by decide)) (hnn.not_mem (by decide)) h'.2.1)

theorem channelSend_types (hw : w.Ok none) (hnamed : w.nicks.Named) {dcc : Bool}
    (h : (w.chans.members c).foldlM (fun w n =>
      if n = userRef then some w else channelSend P w n text dcc) w = some w') :
    Types (fun e => ∃ n ∈ w.chans.members c, w.Hails n text dcc ∧ w.Displaces P n e) w w' := by
  have hidle : ∀ w₁, SameNames w w₁ → ∀ m, ¬ w.Hails m text dcc →
      (if m = userRef then some w₁ else channelSend P w₁ m text dcc) = some w₁ := by
    intro w₁ hsame m hm
    split
    · rfl
    · refine if_neg fun hcond => hm ?_
      rw [hsame.1, hsame.2] at hcond
      exact hcond
  by_cases hone : ∃ n ∈ w.chans.members c, w.Hails n text dcc
  · obtain ⟨n, hn, hhails⟩ := hone
    obtain ⟨w₁, hsend⟩ := buddySend_some (P := P) w n (stringtok text [' ']).2
    have hloop := Runs.foldlM_only (J := SameNames w) (members_nodup hw c) hn
      (f := fun w n => if n = userRef then some w else channelSend P w n text dcc) (t := w₁)
      (fun w₂ hsame m hm hne => hidle w₂ hsame m fun hm' =>
        hne (Hails.unique hw hnamed hn hm hhails hm'))
      ⟨rfl, rfl⟩ ?_ (buddySend_names hsend)
    · obtain rfl := Option.some.inj (hloop.symm.trans h)
      obtain ⟨hspares, hstarts⟩ := buddySend_types hw hhails.1 hsend
      exact ⟨hspares.mono fun e he => ⟨n, hn, hhails, he⟩, hstarts⟩
    · have hconv : (w.nicks.kind n).isConvNick = true := by rw [hhails.1]; rfl
      rw [if_neg (Nicks.userRef_ne hw.table hconv), channelSend]
      exact (if_pos hhails).trans hsend
  · have hloop := Runs.foldlM_idle (J := SameNames w) (s := w) (l := w.chans.members c)
      (f := fun w n => if n = userRef then some w else channelSend P w n text dcc)
      (fun w₂ hsame m hm => hidle w₂ hsame m fun hm' => hone ⟨m, hm, hm'⟩) ⟨rfl, rfl⟩
    obtain rfl := Option.some.inj (hloop.symm.trans h)
    exact .refl w

instance (w : World) (n : NickRef) (text : Str) (dcc : Bool) : Decidable (w.Hails n text dcc) :=
  inferInstanceAs (Decidable (_ ∧ _))

/-- The nicks that a text typed to a target is sent to. -/
def addressees (w : World) (target text : Str) (dcc : Bool) : List NickRef :=
  if target.head? = some '&' ∨ target.head? = some '#' then
    match w.chans.getChannel target with
    | some c =>
      if (w.chans.conv c).isSome then []
      else (w.chans.members c).filter fun n => w.Hails n text dcc
    | none => []
  else (w.nicks.getNick target).toList.filter fun n => w.nicks.kind n = .buddy → dcc = false

theorem privmsg_types (hw : w.Ok none) (hnamed : w.nicks.Named) {target : Str} {dcc : Bool}
    (h : w.privmsg P target text dcc = some w') :
    Types (fun e => ∃ n ∈ w.addressees target text dcc, w.Displaces P n e) w w' := by
  unfold privmsg at h
  unfold addressees
  split at h
  · next hchan =>
    rw [if_pos hchan]
    cases hc : w.chans.getChannel target with
    | none =>
      simp only [hc] at h
      exact Option.some.inj h ▸ .refl w
    | some c =>
      simp only [hc] at h ⊢
      split at h
      · exact Option.some.inj h ▸ .refl w
      · next hv =>
        rw [if_neg hv]
        obtain ⟨hspares, hstarts⟩ := channelSend_types hw hnamed h
        refine ⟨hspares.mono ?_, hstarts⟩
        rintro e ⟨n, hn, hhails, he⟩
        exact ⟨n, List.mem_filter.mpr ⟨hn, decide_eq_true hhails⟩, he⟩
  · next hchan =>
    rw [if_neg hchan]
    cases hn : w.nicks.getNick target with
    | none =>
      simp only [hn] at h
      exact Option.some.inj h ▸ .refl w
    | some n =>
      simp only [hn] at h
      obtain ⟨hspares, hstarts⟩ := nickSend_types hw h
      refine ⟨hspares.mono ?_, hstarts⟩
      rintro e ⟨hdcc, he⟩
      exact ⟨n, List.mem_filter.mpr ⟨List.mem_singleton.mpr rfl, decide_eq_true hdcc⟩, he⟩

end Send

end World
end Minbif

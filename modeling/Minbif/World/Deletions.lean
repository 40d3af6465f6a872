import Minbif.World.Events
import Minbif.World.Sound

/-! What the deletions of a session take the conversation of: nicks, and the channels of chats. -/
namespace Minbif
open Function

/-- A `ConvEntity`: a nick, or the channel of a chat. -/
inductive EntityRef
  | nick (n : NickRef)
  | chan (c : ChanRef)
  deriving DecidableEq

namespace Convs

variable {V V' : Convs} {e : EntityRef} {n : NickRef}

/-- The nick has a conversation, the channel is that of one. -/
def Has (V : Convs) : EntityRef → Prop
  | .nick n => (V.conversation n).isSome = true
  | .chan c => ∃ v, V.uiChan v = some c

theorem Has.same (h : V.Has e) (hc : V'.conversation = V.conversation) (hu : V'.uiChan = V.uiChan) :
    V'.Has e := by
  cases e with
  | nick n => exact (congrArg Option.isSome (congrFun hc n)).trans h
  | chan c =>
    obtain ⟨v, hv⟩ := h
    exact ⟨v, (congrFun hu v).trans hv⟩

theorem Has.forget (h : V.Has e) (hne : e ≠ .nick n) : (V.forget n).Has e := by
  cases e with
  | nick m =>
    have hm : m ≠ n := fun he => hne (congrArg EntityRef.nick he)
    change ((V.forget n).conversation m).isSome = true
    rw [forget_conversation, if_neg hm]
    exact h
  | chan c =>
    obtain ⟨v, hv⟩ := h
    exact ⟨v, by rw [sameIm_forget V n]; exact hv⟩

end Convs

namespace World

variable {P : Purple} {T : Terms} {w w' w'' : World} {D D' : EntityRef → Prop} {e : EntityRef} {n : NickRef}
  {c : ChanRef} {v : ConvRef} {cu : ChanUserRef} {a : AccountRef} {b : BuddyRef} {s : ServerRef}
  {k text : Str}

/-- Only entities of `D` lose their conversation. -/
def Spares (D : EntityRef → Prop) (w w' : World) : Prop :=
  ∀ e, w.convs.Has e → ¬ D e → w'.convs.Has e

theorem Spares.same (hc : w'.convs.conversation = w.convs.conversation)
    (hu : w'.convs.uiChan = w.convs.uiChan) : Spares D w w' := fun _ h _ => h.same hc hu

theorem Spares.of_convs (h : w'.convs = w.convs) : Spares D w w' := by
  apply Spares.same <;> rw [h]

theorem Spares.trans (h : Spares D w w') (h' : Spares D w' w'') : Spares D w w'' :=
  fun e he hD => h' e (h e he hD) hD

theorem Spares.mono (h : Spares D w w') (hD : ∀ e, D e → D' e) : Spares D' w w' :=
  fun e he hne => h e he fun hd => hne (hD e hd)

section Nick

theorem removeNick_spares (h : w.nicks.users.find? k = some n) :
    Spares (· = .nick n) w (w.removeNick k) := by
  intro e he hne
  rw [removeNick_eq h]
  exact he.forget hne

theorem deleteNick_spares (w : World) (n : NickRef) : Spares (· = .nick n) w (w.deleteNick n) :=
  fun _ he hne => he.forget hne

theorem removeServerNicks_spares (s : ServerRef) (fuel : Nat) (w : World) :
    Spares (fun e => ∃ n, e = .nick n ∧ w.nicks.server n = s) w (removeServerNicks s fuel w) := by
  induction fuel generalizing w with
  | zero => exact fun _ he _ => he
  | succ fuel ih =>
    unfold removeServerNicks
    split
    · exact fun _ he _ => he
    · next x hx =>
      have hserver : w.nicks.server x.2 = s := by simpa using List.find?_some hx
      let w₁ : World := { w.deleteNick x.2 with
        nicks := { (w.deleteNick x.2).nicks with users := w.nicks.users.erase x.1 } }
      have hstep : Spares (fun e => ∃ n, e = .nick n ∧ w.nicks.server n = s) w w₁ :=
        (deleteNick_spares w x.2).mono fun e he => ⟨x.2, he, hserver⟩
      exact hstep.trans (ih w₁)

/-- The nicks that are deleted with a server. -/
def OnServer (w : World) (name : Str) : EntityRef → Prop
  | .nick n => w.nicks.servers.find? name = some (w.nicks.server n)
  | .chan _ => False

theorem removeServer_spares (w : World) (name : Str) :
    Spares (w.OnServer name) w (w.removeServer name) := by
  unfold removeServer
  split
  · exact fun _ he _ => he
  · next s hs =>
    refine Spares.mono (D := fun e => ∃ n, e = .nick n ∧ w.nicks.server n = s) ?_ ?_
    · exact removeServerNicks_spares s _ w
    · rintro e ⟨n, rfl, rfl⟩
      exact hs

end Nick

section Chat

/-- What the destructor of a chat deletes: the channel, and the `ChatBuddy`s of its index. -/
def InChat (w : World) (c : ChanRef) : EntityRef → Prop
  | .nick n => w.nicks.kind n = .chatBuddy ∧
      ∃ e ∈ (w.chans.cbuddies c).entries, w.chans.cuNick e.2 = n
  | .chan c' => c' = c

/-- The chats that are left, and what they would take with them, are none but were there before. -/
structure Fewer (w w' : World) : Prop where
  kind : w'.nicks.kind = w.nicks.kind
  server : w'.nicks.server = w.nicks.server
  servers : w'.nicks.servers = w.nicks.servers
  data : w'.data = w.data
  cuNick : w'.chans.cuNick = w.chans.cuNick
  index : ∀ c, ∀ e ∈ (w'.chans.cbuddies c).entries, e ∈ (w.chans.cbuddies c).entries
  uiChan : ∀ v c, w'.convs.uiChan v = some c → w.convs.uiChan v = some c

theorem Fewer.refl (w : World) : Fewer w w :=
  ⟨rfl, rfl, rfl, rfl, rfl, fun _ _ h => h, fun _ _ h => h⟩

theorem Fewer.trans (h : Fewer w w') (h' : Fewer w' w'') : Fewer w w'' where
  kind := h'.kind.trans h.kind
  server := h'.server.trans h.server
  servers := h'.servers.trans h.servers
  data := h'.data.trans h.data
  cuNick := h'.cuNick.trans h.cuNick
  index c e he := h.index c e (h'.index c e he)
  uiChan v c hv := h.uiChan v c (h'.uiChan v c hv)

theorem Fewer.inChat (h : Fewer w w') (he : w'.InChat c e) : w.InChat c e := by
  cases e with
  | nick n =>
    obtain ⟨hk, x, hx, hn⟩ := he
    exact ⟨(congrFun h.kind n).symm.trans hk, x, h.index c x hx, (congrFun h.cuNick x.2).symm.trans hn⟩
  | chan c' => exact he

theorem removeNick_fewer {d : Option ChanRef} (hw : w.Ok d) (h : w.nicks.users.find? k = some n) :
    Fewer w (w.removeNick k) := by
  rw [removeNick_eq h]
  refine ⟨rfl, rfl, rfl, rfl, ?_, fun c x hx => ?_, fun v c hv => ?_⟩
  · exact (Chans.unlinked_quit (N := w.nicks) hw.member n _).cuNick
  · exact Chans.quit_cbuddies_sub hw.member hx
  · change (w.convs.forget n).uiChan v = some c at hv
    rwa [Convs.sameIm_forget w.convs n] at hv

/-- The release of a participant takes the conversation of its nick. -/
theorem releaseCBuddy_spares (hw : w.Ok (some c)) {x : CBuddyRef × ChanUserRef}
    (hx : w.Indexed c x) : Fewer w (releaseCBuddy c w x) ∧ Spares (fun e =>
      w.nicks.kind (w.chans.cuNick x.2) = .chatBuddy ∧ e = .nick (w.chans.cuNick x.2))
      w (releaseCBuddy c w x) := by
  by_cases hk : w.nicks.kind (w.chans.cuNick x.2) = .chatBuddy
  · obtain ⟨hcu, -⟩ := hx hk
    let n := w.chans.cuNick x.2
    let w₁ : World := { w with chans := w.chans.release c n x.2 }
    have hdef : releaseCBuddy c w x = w₁.removeNick (w.nicks.nickname n) := by
      unfold releaseCBuddy
      dsimp only
      rw [if_pos hk]
      rfl
    have hw₁ : w₁.Ok (some c) :=
      (Change.release (P := noPurple) (T := w.terms noPurple .welcome) w c n x.2 hcu rfl hk).ok hw
    have hfind : w.nicks.users.find? (w.nicks.nickname n) = some n := by
      refine hw.table.find?_nickname (hw.placed.ne_nil hw.member hcu).1 ?_
      rw [hk]
      rfl
    have hfewer : Fewer w w₁ := by
      refine ⟨rfl, rfl, rfl, rfl, (Chans.unlinked_release hw.member hcu rfl).cuNick, fun c' y hy => ?_,
        fun _ _ h => h⟩
      rwa [show w₁.chans.cbuddies = w.chans.cbuddies from (Chans.release_rest _ _ _ _).2] at hy
    rw [hdef]
    refine ⟨hfewer.trans (removeNick_fewer hw₁ hfind), ?_⟩
    exact Spares.trans (.of_convs (rfl : w₁.convs = w.convs))
      ((removeNick_spares (w := w₁) hfind).mono fun e he => ⟨hk, he⟩)
  · have hdef : releaseCBuddy c w x = w := by
      unfold releaseCBuddy
      dsimp only
      rw [if_neg hk]
    rw [hdef]
    exact ⟨.refl w, fun _ he _ => he⟩

theorem releaseAll_spares {l : List (CBuddyRef × ChanUserRef)} (hw : w.Ok (some c))
    (hl : l.Pairwise fun a b => a.1 < b.1) (hidx : ∀ x ∈ l, w.Indexed c x) :
    Fewer w (l.foldl (releaseCBuddy c) w) ∧ Spares (fun e => ∃ x ∈ l,
      w.nicks.kind (w.chans.cuNick x.2) = .chatBuddy ∧ e = .nick (w.chans.cuNick x.2))
      w (l.foldl (releaseCBuddy c) w) := by
  induction l generalizing w with
  | nil => exact ⟨.refl w, fun _ he _ => he⟩
  | cons x l ih =>
    obtain ⟨hx, hl⟩ := List.pairwise_cons.mp hl
    obtain ⟨hch, -, hkeep⟩ := releaseCBuddy_changes (P := noPurple)
      (T := w.terms noPurple .welcome) hw (hidx x (by simp))
    obtain ⟨hfewer, hspares⟩ := releaseCBuddy_spares hw (hidx x (by simp))
    obtain ⟨hfewer', hspares'⟩ := ih (hch.ok hw) hl fun y hy =>
      hkeep y (Nat.ne_of_gt (hx y hy)) (hidx y (by simp [hy]))
    refine ⟨hfewer.trans hfewer', Spares.trans ?_ (hspares'.mono ?_)⟩
    · exact hspares.mono fun e he => ⟨x, by simp, he⟩
    · rintro e ⟨y, hy, hk, rfl⟩
      rw [hfewer.cuNick, hfewer.kind] at hk
      rw [hfewer.cuNick]
      exact ⟨y, by simp [hy], hk, rfl⟩

/-- The end of a chat, whose channel goes with its participants. -/
theorem destroyChat_spares' (hw : w.Ok (some c))
    (hidx : ∀ e ∈ (w.chans.cbuddies c).entries, w.Indexed c e) (hu : w.convs.uiChan v = some c) :
    Fewer w (w.destroyChat v) ∧ Spares (w.InChat c) w (w.destroyChat v) := by
  obtain ⟨hc, hconv, -⟩ := hw.chats.bwd v c hu
  obtain ⟨hch, hh⟩ := emptied_changes (P := noPurple) (T := w.terms noPurple .welcome) hw hidx
  have hempty : w.emptied c = (w.chans.cbuddies c).entries.foldl (releaseCBuddy c) w := by
    unfold emptied
    rw [hconv]
    rfl
  obtain ⟨hfewer, hspares⟩ := releaseAll_spares hw (w.chans.cbuddies c).sorted hidx
  rw [← hempty] at hfewer hspares
  have hok := hch.ok hw
  have hcb := (Chans.deleteChan_alive (N := (w.emptied c).nicks) hok.member c).2
  unfold destroyChat
  rw [hu]
  dsimp only
  rw [removeChannel_eq hw hc hh]
  generalize w.emptied c = w₁ at *
  constructor
  · refine hfewer.trans ⟨rfl, rfl, rfl, rfl, ?_, fun c' x hx => ?_, fun u c' hu' => ?_⟩
    · exact (Chans.unlinked_remove (N := w₁.nicks) hok.member c).cuNick
    · exact hcb ▸ hx
    · rcases eq_or_ne u v with rfl | hne
      · simp at hu'
      · simpa [hne] using hu'
  · refine Spares.trans (hspares.mono ?_) ?_
    · rintro e ⟨x, hx, hk, rfl⟩
      exact ⟨hk, x, hx, rfl⟩
    · intro e he hne
      cases e with
      | nick n => exact he
      | chan c' =>
        obtain ⟨u, hu'⟩ := he
        refine ⟨u, (update_of_ne ?_ _ _).trans hu'⟩
        rintro rfl
        have := hfewer.uiChan u c' hu'
        rw [hu] at this
        exact hne (Option.some.inj this).symm

theorem destroyChat_spares (hw : w.Ok none) (v : ConvRef) : Fewer w (w.destroyChat v) ∧
    Spares (fun e => ∃ c ∈ w.convs.uiChan v, w.InChat c e) w (w.destroyChat v) := by
  cases hu : w.convs.uiChan v with
  | none =>
    have heq : update w.convs.uiChan v none = w.convs.uiChan := by rw [← hu, update_eq_self]
    unfold destroyChat
    rw [hu]
    dsimp only
    refine ⟨⟨rfl, rfl, rfl, rfl, rfl, fun _ _ h => h, fun u c h => ?_⟩, Spares.same rfl heq⟩
    exact (congrFun heq u).symm.trans h
  | some c =>
    have hc := (hw.chats.bwd v c hu).1
    obtain ⟨hfewer, hspares⟩ := destroyChat_spares' (hw.opened c) (hw.indexed hc) hu
    exact ⟨hfewer, hspares.mono fun e he => ⟨c, rfl, he⟩⟩

/-- What goes when a nick leaves a chat: a participant itself, or with the User the whole chat. -/
def Leaving (w : World) (n : NickRef) (c : ChanRef) (e : EntityRef) : Prop :=
  (w.chans.getChanUser n c).isSome = true ∧ (w.chans.conv c).isSome = true ∧
    (w.nicks.kind n = .chatBuddy ∧ e = .nick n ∨ n = userRef ∧ w.InChat c e)

theorem part_spares (hw : w.Ok none) (n : NickRef) (c : ChanRef) (message : Str) :
    Spares (w.Leaving n c) w (w.part n c message) := by
  unfold part
  split
  · exact fun _ he _ => he
  · next cu hget =>
    obtain ⟨hcu, hc⟩ := Chans.getChanUser_some hget
    let m := w.partMessage n c message
    let w₁ : World := { w with chans := w.chans.leave c n cu m }
    have hu := Chans.unlinked_leave' hw.member hcu hc m
    have hstep : Spares (w.Leaving n c) w w₁ := .of_convs rfl
    have hplaced := hw.placed.nick n (List.ne_nil_of_mem hcu)
    have hon : (w.chans.getChanUser n c).isSome = true := by rw [hget]; rfl
    dsimp only
    cases hv : w.chans.conv c with
    | none =>
      rw [delUser_leave ((congrFun hu.conv c).trans hv)]
      exact hstep
    | some v =>
      have hconv : (w.chans.conv c).isSome = true := by rw [hv]; rfl
      rw [delUser_leaveChat ((congrFun hu.conv c).trans hv)]
      split
      · next hk =>
        have hfind : w.nicks.users.find? (w.nicks.nickname n) = some n := by
          refine hw.table.find?_nickname hplaced.1 ?_
          rw [hk]
          rfl
        refine hstep.trans ((removeNick_spares (w := w₁) hfind).mono fun e he => ?_)
        exact ⟨hon, hconv, .inl ⟨hk, he⟩⟩
      · split
        · next hn =>
          subst hn
          have hok : w₁.Ok (some c) := (hw.opened c).leave hcu hc m (.inr (.inr rfl))
          have hui : w₁.convs.uiChan v = some c := hw.chats.fwd c v (hw.chanUser_alive hcu hc) hv
          have hfewer : Fewer w w₁ := by
            refine ⟨rfl, rfl, rfl, rfl, hu.cuNick, fun c' x hx => ?_, fun _ _ h => h⟩
            rw [show w₁.chans.cbuddies = w.chans.cbuddiesWithout c userRef from
              (Chans.leave_rest _ _ _ _ _).2] at hx
            exact Chans.cbuddiesWithout_sub hx
          refine hstep.trans ((destroyChat_spares' hok (hw.indexed_leave hcu hc m) hui).2.mono ?_)
          exact fun e he => ⟨hon, hconv, .inr ⟨rfl, hfewer.inChat he⟩⟩
        · exact hstep

/-- A kick from a status channel. -/
theorem kicked_convs (hw : w.Ok none) (hn : n ≠ userRef) (hv : w.chans.conv c = none)
    (kicker : NickRef) (message : Str) : (w.kicked n c kicker message).convs = w.convs ∧
      (w.kicked n c kicker message).nicks = w.nicks := by
  unfold kicked
  rw [hw.chanUsers_eq]
  cases hget : w.chans.getChanUser n c with
  | none => exact ⟨rfl, rfl⟩
  | some cu =>
    obtain ⟨hcu, hc⟩ := Chans.getChanUser_some hget
    let m : Message := ⟨str "KICK", w.nicks.entity kicker, w.chans.chanEntity c,
      [w.nicks.nickname n, message]⟩
    have hu := Chans.unlinked_leave' hw.member hcu hc m
    have hsend : (w.chans.dropChanUser n cu).send n (.msg m) = w.chans.dropChanUser n cu := if_neg hn
    have hdef : kickedOff n c kicker message w cu = { w with chans := w.chans.leave c n cu m } := by
      have h := delUser_leave (w := w) (m := m) ((congrFun hu.conv c).trans hv)
      rw [hsend] at h
      exact h
    change (kickedOff n c kicker message w cu).convs = _ ∧ (kickedOff n c kicker message w cu).nicks = _
    rw [hdef]
    exact ⟨rfl, rfl⟩

/-- What goes with the chats of an account that libpurple has left. -/
def LeftWith (w : World) (a : AccountRef) (left : List ConvRef) (e : EntityRef) : Prop :=
  ∃ v ∈ left, w.convs.alive v = true ∧ w.convs.isChat v = true ∧ w.convs.account v = a ∧
    ∃ c ∈ w.convs.uiChan v, w.InChat c e

theorem leaveChats_spares (hw : w.Ok none) (a : AccountRef) (left : List ConvRef) :
    Fewer w (w.leaveChats a left) ∧ Spares (w.LeftWith a left) w (w.leaveChats a left) := by
  unfold leaveChats
  have hmem : ∀ v ∈ left.filter fun v => w.convs.alive v && w.convs.isChat v && w.convs.account v == a,
      v ∈ left ∧ w.convs.alive v = true ∧ w.convs.isChat v = true ∧ w.convs.account v = a := by
    intro v hv
    simp only [List.mem_filter, Bool.and_eq_true, beq_iff_eq] at hv
    exact ⟨hv.1, hv.2.1.1, hv.2.1.2, hv.2.2⟩
  generalize (left.filter fun v => w.convs.alive v && w.convs.isChat v && w.convs.account v == a) = l
    at hmem
  let I : World → Prop := fun w' => w'.convs.isChat = w.convs.isChat ∧ Fewer w w' ∧
    Spares (w.LeftWith a left) w w'
  have hkeep : ∀ w' v, v ∈ l → w'.Ok none → I w' →
      Goes noPurple (w.terms noPurple .welcome) w' (w'.destroyChat v) ∧ I (w'.destroyChat v) := by
    rintro w' v hv hw' ⟨hchat, hfewer, hspares⟩
    obtain ⟨hin, halive, hisChat, hacc⟩ := hmem v hv
    obtain ⟨hgo, hchat'⟩ := destroyChat_goes hw' ((congrFun hchat v).trans hisChat)
    obtain ⟨hfewer', hspares'⟩ := destroyChat_spares hw' v
    refine ⟨hgo, hchat'.trans hchat, hfewer.trans hfewer', hspares.trans (hspares'.mono ?_)⟩
    rintro e ⟨c, hu, he⟩
    exact ⟨v, hin, halive, hisChat, hacc, c, hfewer.uiChan v c hu, hfewer.inChat he⟩
  have h := (Goes.foldl hkeep hw ⟨rfl, .refl w, fun _ he _ => he⟩).2
  exact h.2

end Chat

section Removal

theorem removedNode_spares (hw : w.Ok none) (b : BuddyRef) :
    Spares (fun e => (w.nickOfBuddy b).map .nick = some e) w (w.removedNode b) := by
  unfold removedNode
  split
  · next n hn =>
    obtain ⟨ha, hk⟩ := hw.nickOfBuddy hn
    have hfind : w.nicks.users.find? (w.nicks.nickname n) = some n :=
      hw.table.find?_nickname ha (by rw [hk]; rfl)
    refine Spares.trans (.of_convs (rfl : (w.quit n (str "Removed")).convs = w.convs)) ?_
    refine (removeNick_spares (w := w.quit n (str "Removed")) hfind).mono fun e he => ?_
    rw [he, hn, Option.map_some]
  · exact fun _ he _ => he

/-- The buddy that `StatusChannel::kick` takes off the list. -/
def kicks (w : World) (channame nick : Str) : Option NickRef :=
  (w.chans.getChannel channame).bind fun c =>
    if (w.chans.conv c).isSome ∨ (w.chans.getChanUser userRef c).isNone then none
    else ((w.chans.users c).find? fun cu =>
      strlower (w.nicks.nickname (w.chans.cuNick cu)) = strlower nick).bind fun cu =>
        let n := w.chans.cuNick cu
        if w.nicks.kind n = .buddy ∧ (w.nicks.account (w.nicks.server n)).isSome then
          w.nickOfBuddy (w.nicks.buddy n)
        else none

theorem kick_spares (hw : w.Ok none) (channame nick reason : Str) :
    Spares (fun e => (w.kicks channame nick).map .nick = some e) w
      (w.kick channame nick reason) := by
  unfold kick kicks
  cases hget : w.chans.getChannel channame with
  | none => exact fun _ he _ => he
  | some c =>
    rw [Option.bind_some]
    dsimp only
    split
    · exact fun _ he _ => he
    · next hcond =>
      cases hfind : (w.chans.users c).find? fun cu =>
          strlower (w.nicks.nickname (w.chans.cuNick cu)) = strlower nick with
      | none => exact fun _ he _ => he
      | some cu =>
        rw [Option.bind_some]
        dsimp only
        split
        · next hk =>
          have hv : w.chans.conv c = none := by
            rw [not_or, Bool.not_eq_true, Option.isSome_eq_false_iff, Option.isNone_iff_eq_none] at hcond
            exact hcond.1
          generalize (str "Removed from buddy list" ++
            if reason.isEmpty then [] else str ": " ++ reason) = text
          have hgo := kicked_goes (P := noPurple) (T := w.terms noPurple .welcome) hw
            (hw.ne_user hk.1) c userRef text
          obtain ⟨hconvs, hnicks⟩ := kicked_convs hw (hw.ne_user hk.1) hv userRef text
          refine Spares.trans (.of_convs hconvs) ((removedNode_spares (hgo.ok hw) _).mono ?_)
          intro e he
          unfold nickOfBuddy at he
          rw [hnicks] at he
          exact he
        · exact fun _ he _ => he

/-- The buddy that `m_kill` takes off the list. -/
def kills (w : World) (nick : Str) : Option NickRef :=
  (w.nicks.getNick nick).bind fun n =>
    if w.nicks.kind n = .buddy ∧ (w.nicks.account (w.nicks.server n)).isSome then
      w.nickOfBuddy (w.nicks.buddy n)
    else none

theorem kill_spares (hw : w.Ok none) (nick reason : Str) :
    Spares (fun e => (w.kills nick).map .nick = some e) w (w.kill nick reason) := by
  unfold kill kills
  cases hget : w.nicks.getNick nick with
  | none => exact fun _ he _ => he
  | some n =>
    rw [Option.bind_some]
    dsimp only
    split
    · next hk =>
      generalize (str "Killed by " ++ w.nicks.nickname userRef ++ str " (" ++
        (str "Removed from buddy list" ++
          if reason.isEmpty then [] else str ": " ++ reason) ++ [')']) = text
      have hgo := quit_goes (P := noPurple) (T := w.terms noPurple .welcome) (w := w)
        (hw.ne_user hk.1) text
      exact Spares.trans (.of_convs (rfl : (w.quit n text).convs = w.convs))
        (removedNode_spares (hgo.ok hw) _)
    · exact fun _ he _ => he

end Removal

end World
end Minbif

import Minbif.World.Pair

/-! Every event is a chain of elementary changes, so every run keeps the invariant. -/
namespace Minbif
open Function
namespace World

variable {P : Purple} {T : Terms} {w w' : World} {n : NickRef} {c : ChanRef} {v : ConvRef}
  {cu : ChanUserRef} {a : AccountRef} {b : BuddyRef} {cb : CBuddyRef} {text : Str}

/-- The nick that the event renames. -/
def renames (P : Purple) (w : World) : Op → Option NickRef
  | .nick newnick => if w.registered || !isValidNickname newnick then none else some userRef
  | .svsnick nick newnick =>
    if !w.registered then none
    else (w.nicks.getNick nick).filter fun n => w.nicks.kind n = .buddy ∧
      isValidNickname newnick ∧ ¬ (w.nicks.getNick newnick).any (· ≠ n)
  | .renameUser v old _ =>
    if !w.registered then none
    else (w.chatChan v).bind fun c => (w.chanUserNamed P c (P.cbName old)).bind fun cu =>
      if w.nicks.kind (w.chans.cuNick cu) = .chatBuddy then some (w.chans.cuNick cu) else none
  | _ => none

section Buddy

theorem Ok.started (hw : w.Ok none) (hreg : w.registered = true) : w.started = true := by
  cases hs : w.started with
  | true => rfl
  | false =>
    rw [(hw.early hs).1] at hreg
    cases hreg

theorem Ok.nickOfBuddy (hw : w.Ok none) (h : w.nickOfBuddy b = some n) :
    w.nicks.alive n = true ∧ w.nicks.kind n = .buddy := by
  unfold World.nickOfBuddy at h
  cases hb : w.nicks.buddyNick b with
  | some m =>
    rw [hb, Option.some_or] at h
    obtain rfl := Option.some.inj h
    exact ⟨(hw.table.buddyNick b m hb).1, (hw.table.buddyNick b m hb).2.1⟩
  | none =>
    rw [hb, Option.none_or] at h
    unfold Nicks.getNickOfBuddy at h
    have hk := List.find?_some h
    simp only [decide_eq_true_eq] at hk
    obtain ⟨e, he, hen⟩ := List.mem_map.mp (List.mem_of_find?_eq_some h)
    exact ⟨hen ▸ hw.table.live e.1 e.2 he, hk.1⟩

/-- A status channel is live and no chat. -/
theorem Ok.getStatusChannel (hw : w.Ok none) (h : w.getStatusChannel a = some c) :
    w.chans.alive c = true ∧ w.chans.conv c = none := by
  unfold World.getStatusChannel at h
  split at h
  · obtain ⟨hc, hv⟩ := Option.filter_eq_some_iff.mp h
    exact ⟨(hw.listed.getChannel.mp hc).1, by simpa using hv⟩
  · cases h

theorem Ok.ne_user (hw : w.Ok none) (hk : w.nicks.kind n = .buddy) : n ≠ userRef :=
  Nicks.userRef_ne hw.table (by rw [hk]; rfl)

/-- `updated` only changes channels. -/
theorem updated_nicks (P : Purple) (w : World) (b : BuddyRef) :
    (w.updated P b).nicks = w.nicks ∧ (w.updated P b).data = w.data ∧
      (w.updated P b).registered = w.registered ∧ (w.updated P b).started = w.started := by
  unfold updated
  dsimp only
  repeat' split
  all_goals exact ⟨rfl, rfl, rfl, rfl⟩

theorem updated_goes (hw : w.Ok none) (hs : w.started = true) (b : BuddyRef) :
    Goes P T w (w.updated P b) := by
  unfold updated
  split
  · next c n hc hn =>
    obtain ⟨hlive, -⟩ := hw.getStatusChannel hc
    obtain ⟨ha, hk⟩ := hw.nickOfBuddy hn
    split
    · dsimp only
      split
      · refine (Change.join w n c _ hs hlive ha (.inr ?_) ?_).goes
        · rw [hk]
          rfl
        · rw [hk]
          nofun
      · next cu hget =>
        obtain ⟨hcu, hcc⟩ := Chans.getChanUser_some hget
        have hmem := hw.member.mem_users hcu hcc
        split
        · exact (Change.setMode w c statusVoice cu hmem).goes
        split
        · exact (Change.delMode w c statusVoice cu hmem).goes
        · exact .refl w
    split
    · exact quit_goes (hw.ne_user hk) _
    · exact .refl w
  · exact .refl w

theorem setAlias_goes (hw : w.Ok none) (hs : w.started = true) (b : BuddyRef) (nickname : Str) :
    Goes P T w (w.setAlias P b nickname) := by
  have hstep : Goes P T w (w.storeAlias b nickname) := (Change.data w none _).goes
  exact hstep.trans (updated_goes (hstep.ok hw) hs b)

theorem newBuddy_goes (hreg : w.registered = true) {b : BuddyRef} {s : ServerRef} {name : Str}
    (hs : w.nicks.servers.find? name = some s) (hnone : w.nicks.buddyNick b = none) :
    Goes P T w (w.newBuddy P b s) := by
  refine (Change.add w .buddy s _ _ _ b 0 hreg rfl (Nicks.freeNickname_free _ _)
    (.inl ⟨name, OrdMap.find?_eq_some.mp hs⟩) (Nicks.freeNickname_proper _ ?_) fun _ => hnone).goes
  generalize w.getAlias P b = nickalias
  split <;> exact nickize_proper _ _

theorem updateNode_goes (hw : w.Ok none) (hreg : w.registered = true) (b : BuddyRef) :
    Goes P T w (w.updateNode P b) := by
  have hfinish : ∀ (w : World) (n : NickRef), w.Ok none → w.registered = true →
      Goes P T w ((if w.getAlias P b = w.nicks.nickname n then w
        else w.setAlias P b (w.nicks.nickname n)).updated P b) := by
    intro w n hw hreg
    have hs := hw.started hreg
    split
    · exact updated_goes hw hs b
    · have hstep := setAlias_goes (P := P) (T := T) hw hs b (w.nicks.nickname n)
      have hs' : (w.setAlias P b (w.nicks.nickname n)).started = true := by
        unfold setAlias
        rw [(updated_nicks P _ b).2.2.2]
        exact hs
      exact hstep.trans (updated_goes (hstep.ok hw) hs' b)
  unfold updateNode
  split
  · next n hn => exact hfinish w n hw hreg
  · next hnone =>
    split
    · exact .refl w
    · next s hserver =>
      have hstep := newBuddy_goes (P := P) (T := T) hreg hserver hnone
      exact hstep.trans (hfinish _ _ (hstep.ok hw) hreg)

theorem removedNode_goes (hw : w.Ok none) (b : BuddyRef) : Goes P T w (w.removedNode b) := by
  unfold removedNode
  split
  · next n hn =>
    obtain ⟨ha, hk⟩ := hw.nickOfBuddy hn
    have hstep := quit_goes (P := P) (T := T) (w := w) (hw.ne_user hk) (str "Removed")
    refine hstep.trans ((hstep.ok hw).removeNick ha ?_)
    exact (congrArg NickKind.isConvNick hk).trans rfl
  · exact .refl w

theorem kick_goes (hw : w.Ok none) (channame nick reason : Str) :
    Goes P T w (w.kick channame nick reason) := by
  unfold kick
  split
  · exact .refl w
  split
  · exact .refl w
  split
  · exact .refl w
  · next c _ _ _ cu hcu =>
    dsimp only
    split
    · next hk =>
      have hstep := kicked_goes (P := P) (T := T) hw (hw.ne_user hk.1) c userRef
        (str "Removed from buddy list" ++ if reason.isEmpty then [] else str ": " ++ reason)
      exact hstep.trans (removedNode_goes (hstep.ok hw) _)
    · exact .refl w

theorem kill_goes (hw : w.Ok none) (nick reason : Str) : Goes P T w (w.kill nick reason) := by
  unfold kill
  split
  · exact .refl w
  · split
    · next n _ hk =>
      have hstep := quit_goes (P := P) (T := T) (w := w) (hw.ne_user hk.1)
        (str "Killed by " ++ w.nicks.nickname userRef ++ str " (" ++
          (str "Removed from buddy list" ++
            if reason.isEmpty then [] else str ": " ++ reason) ++ [')'])
      exact hstep.trans (removedNode_goes (hstep.ok hw) _)
    · exact .refl w

theorem svsnick_goes (hw : w.Ok none) (hreg : w.registered = true) {nick newnick : Str}
    (hT : ∀ n, w.renames P (.svsnick nick newnick) = some n → ¬ T.steady (w.nicks.server n)) :
    Goes P T w (w.svsnick P nick newnick) := by
  unfold svsnick
  split
  · exact .refl w
  · next n hn =>
    split
    · exact .refl w
    · next hcond =>
      simp only [not_or, not_not] at hcond
      obtain ⟨hk, hvalid, hfree⟩ := hcond
      obtain ⟨k, hmem, -⟩ := Nicks.getNick_eq_some hn
      have ha := hw.table.live k n hmem
      have hconv : (w.nicks.kind n).isConvNick = true := by
        rw [hk]
        rfl
      have hfor : w.nicks.FreeFor n newnick := by
        intro k' m hm he
        cases hget : w.nicks.getNick newnick with
        | none => exact (Nicks.getNick_eq_none.mp hget k' m hm he).elim
        | some m' =>
          rw [hget] at hfree
          have hmn : m' = n := by simpa using hfree
          obtain ⟨k'', hm', he'⟩ := Nicks.getNick_eq_some hget
          rw [hmn] at hm'
          exact hw.table.distinct k'' n hm' hconv k' m hm (he.trans he'.symm)
      have hren : w.renames P (.svsnick nick newnick) = some n := by
        simp_all [renames]
      have hstep := (Change.renamed (P := P) (T := T) w n newnick ha hconv hfor (hT n hren)
        (.of_valid (by simpa using hvalid))).goes
      exact hstep.trans (setAlias_goes (hstep.ok hw) (hw.started hreg) _ _)

end Buddy

section StatusChannel

/-- Only channels differ. -/
structure SameNicks (w w' : World) : Prop where
  nicks : w'.nicks = w.nicks
  started : w'.started = w.started
  registered : w'.registered = w.registered

theorem SameNicks.trans {w'' : World} (h : SameNicks w w') (h' : SameNicks w' w'') :
    SameNicks w w'' :=
  ⟨h'.nicks.trans h.nicks, h'.started.trans h.started, h'.registered.trans h.registered⟩

theorem foldl_updated_goes {l : List BuddyRef} (hw : w.Ok none) (hs : w.started = true) :
    Goes P T w (l.foldl (fun w b => w.updated P b) w) ∧
      SameNicks w (l.foldl (fun w b => w.updated P b) w) := by
  refine Goes.foldl (fun w' b _ hw' hsame => ?_) hw ⟨rfl, rfl, rfl⟩
  obtain ⟨hn, -, hr, hst⟩ := updated_nicks P w' b
  exact ⟨updated_goes hw' (hsame.started.trans hs) b, hsame.trans ⟨hn, hst, hr⟩⟩

theorem setAccounts_goes (w : World) (c : ChanRef) (l : List AccountRef) :
    Goes P T w (w.setAccounts c l) := (Change.board w none _ _).goes

/-- The name of a status channel is no chat's, so it is free when no status channel has it. -/
theorem Ok.statusChannel_free (hw : w.Ok none) (hname : (w.data.statusChannel a).head? = some '&')
    (h : w.getStatusChannel a = none) : w.chans.getChannel (w.data.statusChannel a) = none := by
  cases hget : w.chans.getChannel (w.data.statusChannel a) with
  | none => rfl
  | some c =>
    obtain ⟨hc, hcn⟩ := hw.listed.getChannel.mp hget
    have hplain : w.chans.conv c = none := by
      cases hv : w.chans.conv c with
      | none => rfl
      | some v =>
        have hhash := (hw.listed.hash c hc).mp (by rw [hv]; rfl)
        rw [hcn, hname] at hhash
        cases hhash
    simp [World.getStatusChannel, hname, hget, hplain] at h

theorem openStatusChannel_goes (hw : w.Ok none) (hs : w.started = true)
    (hname : (w.data.statusChannel a).head? = some '&') :
    Goes P T w (w.openStatusChannel a).1 ∧ SameNicks w (w.openStatusChannel a).1 := by
  unfold openStatusChannel
  split
  · exact ⟨.refl w, rfl, rfl, rfl⟩
  · next hnone =>
    let w₁ : World := { w with chans := w.chans.opened (w.data.statusChannel a) none none }
    have hopen : Goes P T w w₁ := by
      refine (Change.newStatus w _ (hw.statusChannel_free hname hnone) ?_).goes
      rw [hname]
      decide
    have hjoin : Goes P T w₁ (w₁.join userRef w.chans.next statusOp) := by
      refine (Change.join w₁ userRef w.chans.next statusOp hs ?_ ?_ (.inl rfl) ?_).goes
      · exact Chans.opened_alive.mpr (.inl rfl)
      · exact hw.table.userAlive
      · intro hk
        cases hw.table.userKind.symm.trans hk
    exact ⟨hopen.trans hjoin, rfl, rfl, rfl⟩

theorem createStatusChannel_goes (hw : w.Ok none) (hs : w.started = true) (a : AccountRef) :
    Goes P T w (w.createStatusChannel P a) ∧ SameNicks w (w.createStatusChannel P a) := by
  unfold createStatusChannel
  split
  · exact ⟨.refl w, rfl, rfl, rfl⟩
  · next hname =>
    rw [not_not] at hname
    obtain ⟨hopen, hsame⟩ := openStatusChannel_goes (P := P) (T := T) hw hs hname
    have hstep := hopen.trans (setAccounts_goes (w.openStatusChannel a).1
      (w.openStatusChannel a).2
      ((w.openStatusChannel a).1.chans.accounts (w.openStatusChannel a).2 ++ [a]))
    obtain ⟨hup, hsame'⟩ := foldl_updated_goes (P := P) (T := T)
      (l := (w.openStatusChannel a).1.data.buddies a) (hstep.ok hw) (hsame.started.trans hs)
    exact ⟨hstep.trans hup, hsame.trans ⟨hsame'.nicks, hsame'.started, hsame'.registered⟩⟩

/-- A status channel that buddies leave stays what it was. -/
theorem partStatusChannel_goes (hw : w.Ok none) (hv : w.chans.conv c = none) (b : BuddyRef) :
    Goes P T w (partStatusChannel c w b) ∧ Holds w (partStatusChannel c w b) := by
  unfold partStatusChannel
  split
  · next n hn =>
    refine ⟨part_goes hw n c _, ?_⟩
    unfold part
    split
    · exact .refl w
    · next cu hget =>
      obtain ⟨hcu, hc⟩ := Chans.getChanUser_some hget
      have hu := Chans.unlinked_leave' hw.member hcu hc
        (w.partMessage n c (str "Leaving status channel"))
      dsimp only
      rw [delUser_leave ((congrFun hu.conv c).trans hv)]
      exact ⟨(Chans.leave_rest _ _ _ _ _).1, hu.name, hu.conv, rfl⟩
  · exact ⟨.refl w, .refl w⟩

theorem foldl_part_goes {l : List BuddyRef} (hw : w.Ok none) (hv : w.chans.conv c = none) :
    Goes P T w (l.foldl (partStatusChannel c) w) ∧ Holds w (l.foldl (partStatusChannel c) w) := by
  refine Goes.foldl (fun w' b _ hw' hh => ?_) hw (.refl w)
  obtain ⟨hgo, hh'⟩ := partStatusChannel_goes (P := P) (T := T) hw' ((congrFun hh.conv c).trans hv) b
  exact ⟨hgo, hh.trans hh'⟩

theorem leaveStatusChannel_goes (hw : w.Ok none) (a : AccountRef) :
    Goes P T w (w.leaveStatusChannel a) := by
  unfold leaveStatusChannel
  split
  · exact .refl w
  · next c hc =>
    obtain ⟨hlive, hv⟩ := hw.getStatusChannel hc
    have hacc := setAccounts_goes (P := P) (T := T) w c ((w.chans.accounts c).erase a)
    obtain ⟨hpart, hh⟩ := foldl_part_goes (P := P) (T := T) (c := c)
      (l := w.data.buddies a) (hacc.ok hw) hv
    have hstep := hacc.trans hpart
    dsimp only
    split
    · refine hstep.trans (removeChannel_goes (hstep.ok hw) ?_ ?_)
      · exact (congrFun hh.alive c).trans hlive
      · exact (congrFun hh.conv c).trans hv
    · exact hstep

end StatusChannel

section StartUp

theorem Changes.started {s s' : Stage} (h : Changes P T s s') (hs : s.1.started = true) :
    s'.1.started = true := by
  induction h with
  | refl => exact hs
  | tail _ hstep ih =>
    cases hstep with
    | started w => rfl
    | _ => exact ih

theorem foldl_create_goes {l : List AccountRef} (hw : w.Ok none) (hs : w.started = true) :
    Goes P T w (l.foldl (fun w a => w.createStatusChannel P a) w) ∧
      SameNicks w (l.foldl (fun w a => w.createStatusChannel P a) w) := by
  refine Goes.foldl (fun w' a _ hw' hsame => ?_) hw ⟨rfl, rfl, rfl⟩
  obtain ⟨hgo, hsame'⟩ := createStatusChannel_goes (P := P) (T := T) hw' (hsame.started.trans hs) a
  exact ⟨hgo, hsame.trans hsame'⟩

/-- Neither nick of the server finds its name taken. -/
def NamesFree (w : World) : Prop :=
  w.nicks.getNick (str "request") = none ∧ w.nicks.getNick (str "buddyicon") = none

theorem startUp_goes (hw : w.Ok none) (hs : w.started = false) (accounts : List AccountRef)
    (hfree : T.apart → w.NamesFree) : Goes P T w (w.startUp P accounts) := by
  have hstart : Goes P T w { w with started := true } := (Change.started w).goes
  obtain ⟨hcreate, hsame⟩ := foldl_create_goes (P := P) (T := T) (l := accounts)
    (hstart.ok hw) rfl
  unfold startUp
  dsimp only
  generalize accounts.foldl (fun w a => w.createStatusChannel P a)
    { w with started := true } = w₁ at hcreate hsame
  have hreg : w₁.registered = false := hsame.registered.trans (hw.early hs).1
  have hnicks : w₁.nicks = w.nicks := hsame.nicks
  have hreq := (Change.addLocal (P := P) (T := T) w₁ .requestNick (str "request") hreg rfl
    fun ht => by rw [hnicks]; exact (hfree ht).1).goes
  let w₂ := w₁.addLocal .requestNick (str "request")
  have hicon : Goes P T w₂ (w₂.addLocal .buddyIcon (str "buddyicon")) := by
    refine (Change.addLocal w₂ .buddyIcon _ hreg rfl ?_).goes
    intro ht
    rw [Nicks.getNick_eq_none]
    intro k m hm
    rcases Nicks.mem_added.mp hm with ⟨rfl, -⟩ | ⟨-, hm⟩
    · decide
    · rw [hnicks] at hm
      exact Nicks.getNick_eq_none.mp (hfree ht).2 k m hm
  exact (hstart.trans hcreate).trans (hreq.trans hicon)

end StartUp

section Chat

theorem freeChannel (C : Chans) (name : Str) : C.getChannel (Fresh.freshLoop
    (fun s => (C.getChannel s).isSome) '_' (C.table.entries.length + 1) name) = none := by
  have h := @Fresh.freshLoop_free Char (fun s => (C.getChannel s).isSome) id
    (C.table.entries.map Prod.fst) '_' (C.table.entries.length + 1) name (fun _ => rfl) ?_ ?_
  · simpa using h
  · intro s hs
    obtain ⟨c, hc⟩ := Option.isSome_iff_exists.mp hs
    exact List.mem_map.mpr ⟨(s, c), OrdMap.find?_eq_some.mp hc, rfl⟩
  · exact Nat.lt_succ_of_le (List.countP_le_length.trans (by simp))

theorem newChat_goes (hw : w.Ok none) (hs : w.started = true) (a : AccountRef) (name : Str) :
    Goes P T w (w.newChat a name) := by
  unfold newChat
  dsimp only
  generalize hch : Fresh.freshLoop (fun s => (w.chans.getChannel s).isSome) '_'
    (w.chans.table.entries.length + 1) (w.normalizeIRCName a name) = channame
  generalize hserver : ((w.nicks.servers.find? (w.data.servername a)).filter fun s =>
    (w.nicks.account s).isSome) = up
  have hup : ∀ s, up = some s → ∃ k, (k, s) ∈ w.nicks.servers.entries := by
    intro s hs
    have hfind := (Option.filter_eq_some_iff.mp (hserver.trans hs)).1
    exact ⟨_, OrdMap.find?_eq_some.mp hfind⟩
  have hfree : w.chans.getChannel channame = none := by
    rw [← hch]
    exact freeChannel w.chans _
  have hhash : channame.head? = some '#' := by
    obtain ⟨k, hk⟩ := @Fresh.freshLoop_prefix Char (fun s => (w.chans.getChannel s).isSome)
      '_' (w.chans.table.entries.length + 1) (w.normalizeIRCName a name)
    rw [← hch, hk]
    rfl
  let w₁ : World := { w with
    convs := w.convs.openChat a name w.chans.next
    chans := w.chans.opened channame (some w.convs.next) up }
  have hopen : Goes P T w w₁ := (Change.newChat w a name channame up hfree hhash hup).goes
  have hjoin : Goes P T w₁ (w₁.join userRef w.chans.next 0) := by
    refine (Change.join w₁ userRef w.chans.next 0 hs ?_ ?_ (.inl rfl) ?_).goes
    · exact Chans.opened_alive.mpr (.inl rfl)
    · exact hw.table.userAlive
    · intro hk
      cases hw.table.userKind.symm.trans hk
  exact hopen.trans hjoin

theorem Ok.chatChan (hw : w.Ok none) (h : w.chatChan v = some c) :
    w.chans.alive c = true ∧ (w.chans.conv c).isSome = true := by
  unfold World.chatChan at h
  split at h
  · obtain ⟨hc, hv, -⟩ := hw.chats.bwd v c h
    exact ⟨hc, by rw [hv]; rfl⟩
  · cases h

theorem Ok.join_member (hw : w.Ok none) (h : w.chans.getChanUser n c = some cu) :
    cu ∈ w.chans.users c ∧ w.chans.cuNick cu = n := by
  obtain ⟨hcu, hc⟩ := Chans.getChanUser_some h
  exact ⟨hw.member.mem_users hcu hc, (hw.member.fwd n cu hcu).1⟩

/-- A new `ChatBuddy`, which is on no channel yet. -/
theorem newChatBuddy_goes (hw : w.Ok none) (hreg : w.registered = true)
    (hc : w.chans.alive c = true) (h : w.newChatBuddy P c cb = some w') : Goes P T w w' ∧
      w'.chans = w.chans ∧ w'.data = w.data ∧ w'.registered = w.registered ∧
      w'.chans.channels w.nicks.next = [] ∧ w'.nicks.alive w.nicks.next = true ∧
      w'.nicks.kind w.nicks.next = .chatBuddy ∧ w'.nicks.cbuddy w.nicks.next = cb := by
  unfold newChatBuddy at h
  dsimp only at h
  obtain ⟨s, hs, rfl⟩ := Option.map_eq_some_iff.mp h
  refine ⟨(Change.add w .chatBuddy s _ _ _ 0 cb hreg rfl (Nicks.freeNickname_free _ _)
      (.inr ⟨c, hc, hs⟩) (Nicks.freeNickname_proper _ (nickize_proper _ _)) nofun).goes,
    rfl, rfl, rfl, ?_, ?_, ?_, ?_⟩
  · by_contra hne
    exact hw.table.ne_next (hw.placed.nick _ hne).1 rfl
  all_goals simp [Nicks.addNick, Nicks.newNick]

theorem addBuddy_goes (hw : w.Ok none) (hreg : w.registered = true)
    (hc : w.chans.alive c = true) (hv : (w.chans.conv c).isSome = true) (hT : T.presents)
    (h : w.addBuddy P c cb = some w') : Goes P T w w' ∧ w'.registered = true := by
  have hs := hw.started hreg
  have hset : ∀ (w : World) (n : NickRef) (cu : ChanUserRef), (w.chans.conv c).isSome = true →
      w.Ok none → w.chans.getChanUser n c = some cu →
      (n = userRef ∨ w.nicks.kind n = .chatBuddy ∧ w.nicks.cbuddy n = cb) →
      Goes P T w (w.setCBuddy c cb cu) := by
    intro w n cu hv hw hget hn
    obtain ⟨hcu, hcn⟩ := hw.join_member hget
    exact (Change.setCBuddy w c cb cu hv hcu (hcn ▸ hn) hT).goes
  have hkeep : ∀ (w : World) (n : NickRef) (status : Status), (w.chans.conv c).isSome = true →
      ((w.join n c status).chans.conv c).isSome = true := fun w n status hv =>
    (congrArg Option.isSome (congrFun (Chans.join_rest w.nicks w.chans n c status).2 c)).trans hv
  unfold addBuddy at h
  dsimp only at h
  split at h
  · obtain ⟨cu, hget, rfl⟩ := Option.map_eq_some_iff.mp h
    have hjoin : Goes P T w (w.join userRef c (w.data.cbFlags cb)) := by
      refine (Change.join w userRef c _ hs hc hw.table.userAlive (.inl rfl) ?_).goes
      intro hk
      cases hw.table.userKind.symm.trans hk
    exact ⟨hjoin.trans (hset _ userRef cu (hkeep w _ _ hv) (hjoin.ok hw) hget (.inl rfl)), hreg⟩
  split at h
  · next cu hcu =>
    obtain rfl := Option.some.inj h
    have hidx := hw.placed.index c nofun hc cb cu (OrdMap.find?_eq_some.mp hcu)
    exact ⟨(Change.setCBuddy w c cb cu hv hidx.1 hidx.2 hT).goes, hreg⟩
  · obtain ⟨w₁, hnew, h⟩ := Option.bind_eq_some_iff.mp h
    obtain ⟨cu, hget, rfl⟩ := Option.map_eq_some_iff.mp h
    obtain ⟨hadd, hchans, -, hreg₁, hnone, ha, hk, hcb⟩ :=
      newChatBuddy_goes (T := T) hw hreg hc hnew
    have hok := hadd.ok hw
    rw [hreg] at hreg₁
    rw [← hchans] at hc hv
    have hjoin : Goes P T w₁ (w₁.join w.nicks.next c (w.data.cbFlags cb)) := by
      refine (Change.join w₁ w.nicks.next c _ (hok.started hreg₁) hc ha (.inr ?_)
        fun _ => hnone).goes
      rw [hk]
      rfl
    exact ⟨(hadd.trans hjoin).trans (hset _ w.nicks.next cu (hkeep w₁ _ _ hv) (hjoin.ok hok) hget
      (.inr ⟨hk, hcb⟩)), hreg₁⟩

theorem addUsers_goes {l : List CBuddyRef} (hw : w.Ok none) (hreg : w.registered = true)
    (hT : T.presents) (h : l.foldlM (fun w cb =>
      match w.chatChan v with
      | some c => w.addBuddy P c cb
      | none => some w) w = some w') : Goes P T w w' := by
  induction l generalizing w with
  | nil => exact Option.some.inj h ▸ .refl w
  | cons cb l ih =>
    obtain ⟨w₁, h₁, hrest⟩ := Option.bind_eq_some_iff.mp (by simpa using h)
    have hstep : Goes P T w w₁ ∧ w₁.registered = true := by
      split at h₁
      · next c hc =>
        obtain ⟨hlive, hv⟩ := hw.chatChan hc
        exact addBuddy_goes hw hreg hlive hv hT h₁
      · exact Option.some.inj h₁ ▸ ⟨.refl w, hreg⟩
    exact hstep.1.trans (ih (hstep.1.ok hw) hstep.2 hrest)

theorem updateBuddy_goes (hw : w.Ok none) (hc : w.chans.alive c = true)
    (h : w.updateBuddy c cb = some w') : Goes P T w w' := by
  obtain ⟨cu, hcu, rfl⟩ := Option.map_eq_some_iff.mp h
  have hmem := (hw.placed.index c nofun hc cb cu (OrdMap.find?_eq_some.mp hcu)).1
  let add := newBits (w.chans.cuStatus cu) (w.data.cbFlags cb)
  let w₁ : World := { w with chans := w.chans.setMode w.nicks c add cu }
  have hset : Goes P T w w₁ := (Change.setMode w c add cu hmem).goes
  have hmem₁ : cu ∈ w₁.chans.users c := by
    have hs : w₁.chans = _ := Chans.sameStatus_setMode w.nicks w.chans c add cu
    rw [hs]
    exact hmem
  exact hset.trans (Change.delMode w₁ c _ cu hmem₁).goes

/-- The `ChanUser` a participant's name leads to is on its channel. -/
theorem Ok.chanUserNamed (hw : w.Ok none) (hc : w.chans.alive c = true) {name : Str}
    (h : w.chanUserNamed P c name = some cu) : cu ∈ w.chans.users c := by
  obtain ⟨e, he, rfl⟩ := Option.map_eq_some_iff.mp h
  exact (hw.placed.index c nofun hc e.1 e.2 (List.mem_of_find?_eq_some he)).1

theorem renameBuddy_goes (hw : w.Ok none) (hv : (w.chans.conv c).isSome = true)
    (hcu : cu ∈ w.chans.users c)
    (hT : w.nicks.kind (w.chans.cuNick cu) = .chatBuddy →
      ¬ T.steady (w.nicks.server (w.chans.cuNick cu))) (h : w.renameBuddy P c cu cb = some w') : Goes P T w w' := by
  unfold renameBuddy at h
  dsimp only at h
  split at h
  · cases h
  · next hk =>
    rw [not_not] at hk
    obtain rfl := Option.some.inj h
    have ha := (hw.placed.ne_nil hw.member hcu).1
    have hconv : (w.nicks.kind (w.chans.cuNick cu)).isConvNick = true := by
      rw [hk]
      rfl
    split
    · exact (Change.rebound w c _ cu cb hcu rfl hv hk).goes
    · let newNick := w.nicks.freeNickname (nickize (P.translit (P.cbName cb)) (P.cbName cb))
      have hfree : w.nicks.FreeFor (w.chans.cuNick cu) newNick := fun k m hm he =>
        (Nicks.getNick_eq_none.mp (Nicks.freeNickname_free w.nicks _) k m hm he).elim
      let w₁ : World := { w.tellUser ⟨str "NICK", w.nicks.entity (w.chans.cuNick cu), .unset,
        [newNick]⟩ with nicks := w.nicks.renameNick (w.chans.cuNick cu) newNick }
      have hstep : Goes P T w w₁ :=
        (Change.renamed w (w.chans.cuNick cu) newNick ha hconv hfree (hT hk)
          (Nicks.freeNickname_proper _ (nickize_proper _ _))).goes
      exact hstep.trans (Change.rebound w₁ c (w.chans.cuNick cu) cu cb hcu rfl hv hk).goes

theorem topic_quiet : str "TOPIC" ∉ viewCmds := by decide

theorem setTopic_goes (w : World) (c : ChanRef) (who : StoredEntity) (topic : Str) :
    Goes P T w (w.setTopic c who topic) := by
  unfold setTopic
  dsimp only
  split
  · exact .refl w
  · exact (Change.board w none _ _).goes.trans (tellChan_goes topic_quiet c)

end Chat

section Receive

/-- A name that a line of a conversation without a nick is taken for. -/
def FairName (P : Purple) (w : World) (v : ConvRef) (sender : Str) : Prop :=
  w.convs.uiNick v = none → ∀ n, w.buddyNamed sender = some n → w.Fits P n v

theorem Ok.buddyNamed (hw : w.Ok none) {sender : Str} (h : w.buddyNamed sender = some n) :
    w.nicks.alive n = true ∧ w.nicks.kind n = .buddy := by
  obtain ⟨hn, hk⟩ := Option.filter_eq_some_iff.mp h
  obtain ⟨k, hmem, -⟩ := Nicks.getNick_eq_some hn
  exact ⟨hw.table.live k n hmem, by simpa using hk⟩

/-- The pairing leaves no nick to be found for a conversation without one. -/
theorem Ok.getNickOfConv (hw : w.Ok none) (hu : w.convs.uiNick v = none) :
    w.getNickOfConv v = none := by
  unfold World.getNickOfConv
  rw [List.find?_eq_none]
  intro n _ hn
  simp only [decide_eq_true_eq] at hn
  rw [(hw.paired.pair v n).mpr hn.2] at hu
  cases hu

theorem newUnknown_goes (hw : w.Ok none) (hreg : w.registered = true) (hv : w.convs.isIm v)
    (hu : w.convs.uiNick v = none) (h : w.newUnknown P v = some w') :
    Goes P T w (w'.pairUp w.nicks.next v) := by
  unfold newUnknown at h
  dsimp only at h
  obtain ⟨s, hs, rfl⟩ := Option.map_eq_some_iff.mp h
  generalize hnick : w.nicks.freeNickname _ = nick
  have hfree : w.nicks.getNick nick = none := hnick ▸ Nicks.freeNickname_free _ _
  have hproper : ProperNick nick := by
    rw [← hnick]
    apply Nicks.freeNickname_proper
    split <;> exact nickize_proper _ _
  generalize (stringtok (w.convs.name v) ['@']).1 = ident
  generalize w.hostOf _ _ = host
  let w₁ : World := { w with nicks := w.nicks.added .unknownBuddy s nick ident host 0 0 }
  have hadd : Goes P T w w₁ :=
    (Change.add w .unknownBuddy s nick ident host 0 0 hreg rfl hfree
      (.inl ⟨_, OrdMap.find?_eq_some.mp hs⟩) hproper nofun).goes
  have hkind : w₁.nicks.kind w.nicks.next = .unknownBuddy := Nicks.added_kind_self
  have hnone : w₁.convs.conversation w.nicks.next = none := by
    cases hc : w.convs.conversation w.nicks.next with
    | none => rfl
    | some u => exact (hw.table.ne_next (hw.talks.nick _ u hc).1 rfl).elim
  have hlink : Goes P T w₁ { w₁ with
      convs := w₁.convs.link (w₁.nicks.kind w.nicks.next) w.nicks.next v } := by
    refine (Change.link w₁ w.nicks.next v (Nicks.added_alive.mpr (.inl rfl)) ?_ hv ?_
      (.inr hnone) ?_).goes
    · rw [hkind]
      rfl
    · rw [hnone]
      nofun
    · intro _ hk
      rw [hkind] at hk
      cases hk
  refine hadd.trans ?_
  -- the constructor has set the conversation already, `setConversation` sets it again
  have hdef : pairUp { w₁ with convs := w₁.convs.putConversation w.nicks.next (some v) }
      w.nicks.next v = { w₁ with
        convs := w₁.convs.link (w₁.nicks.kind w.nicks.next) w.nicks.next v } := by
    have hrel : w₁.convs.release v = w₁.convs := by
      simp [Convs.release, w₁, hu]
    have hset : setNick { w₁ with convs := w₁.convs.putConversation w.nicks.next (some v) } v
        (some w.nicks.next) = { w₁ with convs :=
          (w₁.convs.putConversation w.nicks.next (some v)).setUiNick v (some w.nicks.next) } := by
      simp [setNick, Convs.putConversation, w₁, hu]
    unfold pairUp
    rw [hset]
    simp [setConversation, Convs.link, hrel, hkind, Convs.setConversation, Convs.setUiNick,
      Convs.putConversation]
  rw [← hdef] at hlink
  exact hlink

theorem recvNick_goes (hw : w.Ok none) (hreg : w.registered = true) (hv : w.convs.isIm v)
    {sender : Str} (hfair : T.fair → w.FairName P v sender) {r : World × Option NickRef}
    (h : w.recvNick P v sender = some r) : Goes P T w r.1 ∧
      ∀ n, r.2 = some n → r.1.convs.conversation n = some v := by
  unfold recvNick at h
  cases hu : w.convs.uiNick v with
  | some n =>
    simp only [hu, Option.some.injEq] at h
    subst h
    refine ⟨.refl w, ?_⟩
    rintro m ⟨⟩
    exact (hw.paired.pair v n).mp hu
  | none =>
    simp only [hu, hw.getNickOfConv hu] at h
    have hne : ∀ n, w.convs.conversation n ≠ some v := by
      intro n hc
      rw [(hw.paired.pair v n).mpr hc] at hu
      cases hu
    cases hb : w.buddyNamed sender with
    | some n =>
      simp only [hb, Option.some.injEq] at h
      subst h
      obtain ⟨ha, hk⟩ := hw.buddyNamed hb
      refine ⟨pairUp_goes hw ha (by rw [hk]; rfl) hv (hne n) (.inl hk)
        fun ht => hfair ht hu n hb, ?_⟩
      rintro m ⟨⟩
      exact pairUp_conversation
    | none =>
      simp only [hb] at h
      split at h
      · obtain rfl := Option.some.inj h
        exact ⟨.refl w, nofun⟩
      · obtain ⟨w₁, hnew, rfl⟩ := Option.map_eq_some_iff.mp h
        refine ⟨newUnknown_goes hw hreg hv hu hnew, ?_⟩
        rintro m ⟨⟩
        exact pairUp_conversation

theorem recvMessage_goes (hw : w.Ok none) (hreg : w.registered = true)
    (hv : w.convs.alive v = true) {sender : Str} {action : Bool}
    (hfair : T.fair → w.convs.isChat v = false → w.FairName P v sender)
    (h : w.recvMessage P v sender text action = some w') : Goes P T w w' := by
  unfold recvMessage at h
  split at h
  · obtain rfl := Option.some.inj h
    split
    · exact recvChat_goes w _ sender text action
    · exact .refl w
  · next hchat =>
    rw [Bool.not_eq_true] at hchat
    obtain ⟨r, hr, rfl⟩ := Option.map_eq_some_iff.mp h
    obtain ⟨hgo, hconv⟩ := recvNick_goes hw hreg ⟨hv, hchat⟩ (fun ht => hfair ht hchat) hr
    split
    · next n hn => exact hgo.trans (showLines_goes (hconv n hn) text action)
    · exact hgo

end Receive

section Transfer

theorem Ok.getNickOfBuddy (hw : w.Ok none) (h : w.nicks.getNickOfBuddy b = some n) :
    w.nicks.alive n = true := by
  obtain ⟨e, he, rfl⟩ := List.mem_map.mp (List.mem_of_find?_eq_some h)
  exact hw.table.live e.1 e.2 he

theorem addDcc_goes {isGet : Bool} {peer : Option NickRef}
    (hpeer : ∀ n, peer = some n → w.nicks.alive n = true) : Goes P T w (w.addDcc isGet peer) := by
  refine (Change.dccs w none _ fun x hx n hn => ?_).goes
  rcases List.mem_append.mp hx with hx | hx
  · exact .inl ⟨x, hx, hn⟩
  · obtain rfl := List.mem_singleton.mp hx
    exact .inr (hpeer n hn)

theorem dccSend_goes (hw : w.Ok none) (b : Option BuddyRef) :
    Goes P T w (w.addDcc false (b.bind w.nicks.getNickOfBuddy)) := by
  refine addDcc_goes fun n hn => ?_
  obtain ⟨b, -, hb⟩ := Option.bind_eq_some_iff.mp hn
  exact hw.getNickOfBuddy hb

theorem finishDcc_goes (w : World) (i : Nat) : Goes P T w (w.finishDcc i) := by
  refine (Change.dccs w none _ fun x hx n hn => .inl ?_).goes
  obtain ⟨j, hj, rfl⟩ := List.mem_iff_getElem.mp hx
  rw [List.getElem_modify] at hn
  refine ⟨_, List.getElem_mem (by simpa using hj), ?_⟩
  split at hn <;> exact hn

theorem updateDcc_goes (w : World) : Goes P T w w.updateDcc :=
  (Change.dccs w none _ fun x hx _ hn => .inl ⟨x, (List.mem_filter.mp hx).1, hn⟩).goes

end Transfer

section Run

/-- A message of a conversation without a nick is taken for a buddy's only if it is his. -/
def Fair (P : Purple) (w : World) : Op → Prop
  | .recvMessage v sender _ _ =>
    w.registered = true → w.convs.isIm v → w.FairName P v sender
  | _ => True

/-- The registration takes no name twice. -/
def Apart (w : World) : Op → Prop
  | .nick newnick =>
    w.registered = false → isValidNickname newnick = true → w.nicks.FreeFor userRef newnick
  | .startUp _ => w.started = false → w.NamesFree
  | _ => True

/-- The User has its nickname once the start-up has put it on channels. -/
def Still (w : World) : Op → Prop
  | .nick _ => w.started = false ∨ w.registered = true
  | _ => True

/-- An event that leaves the nickname of the User as it is. -/
def Keeps (w : World) : Op → Prop
  | .nick _ => w.registered = true
  | _ => True

/-- An event that renames no nick of the server. -/
def Steady (P : Purple) (s : ServerRef) (w : World) (op : Op) : Prop :=
  ∀ n ∈ w.renames P op, w.nicks.server n ≠ s

/-- An event that presents the participants of a chat. -/
def Presents (op : Op) : Prop := ∃ v l, op = .addUsers v l

/-- The server that the event removes, and the state when `IRC::removeServer` is called. -/
def removing (w : World) : Op → Option (World × ServerRef)
  | .disconnected a left =>
    if !w.registered then none
    else
      let w := w.leaveChats a left
      (w.nicks.servers.find? (w.data.servername a)).map fun s => (w, s)
  | _ => none

/-- What is promised about one event. -/
def terms (P : Purple) (w : World) (op : Op) : Terms where
  fair := w.Fair P op
  apart := w.Apart op
  still := w.Keeps op
  steady s := w.Steady P s op
  gone s := ∃ r ∈ w.removing op, r.2 = s
  clean := ∀ r ∈ w.removing op, r.1.Unused r.2
  presents := Presents op

theorem foldl_destroyChat_goes {l : List ConvRef} (hw : w.Ok none)
    (hl : ∀ v ∈ l, w.convs.isChat v = true) : Goes P T w (l.foldl destroyChat w) := by
  have hkeep : ∀ w' v, v ∈ l → w'.Ok none → w'.convs.isChat = w.convs.isChat →
      Goes P T w' (w'.destroyChat v) ∧ (w'.destroyChat v).convs.isChat = w.convs.isChat := by
    intro w' v hv hw' hsame
    obtain ⟨hgo, hchat⟩ := destroyChat_goes (P := P) (T := T) hw' ((congrFun hsame v).trans (hl v hv))
    exact ⟨hgo, hchat.trans hsame⟩
  exact (Goes.foldl hkeep hw rfl).1

/-- The events of libpurple and of a registered User. -/
theorem registered_goes (hw : w.Ok none) (hreg : w.registered = true) {op : Op}
    (h : w.runRegistered P op = some w') : Goes P (w.terms P op) w w' := by
  cases op with
  | data _ | nick _ | startUp _ | welcome => exact Option.some.inj h ▸ .refl w
  | connected a => exact Option.some.inj h ▸ (Change.connected w a).goes
  | disconnected a left =>
    obtain rfl := Option.some.inj h
    have hstep : Goes P (w.terms P (.disconnected a left)) w (w.leaveChats a left) :=
      foldl_destroyChat_goes (l := left.filter fun v => w.convs.alive v && w.convs.isChat v &&
        w.convs.account v == a) hw fun v hv => by
          have := (List.mem_filter.mp hv).2
          simp only [Bool.and_eq_true] at this
          exact this.1.2
    refine hstep.trans (removeServer_goes (hstep.ok hw) _ fun s hs => ?_)
    have hr : (w.leaveChats a left, s) ∈ w.removing (.disconnected a left) := by
      simp [removing, hreg, hs]
    exact ⟨⟨_, hr, rfl⟩, fun hc => hc _ hr⟩
  | createStatusChannel a =>
    exact Option.some.inj h ▸ (createStatusChannel_goes hw (hw.started hreg) a).1
  | leaveStatusChannel a => exact Option.some.inj h ▸ leaveStatusChannel_goes hw a
  | updateNode b => exact Option.some.inj h ▸ updateNode_goes hw hreg b
  | buddyUpdated b => exact Option.some.inj h ▸ updated_goes hw (hw.started hreg) b
  | removedNode b => exact Option.some.inj h ▸ removedNode_goes hw b
  | newConversation a name => exact Option.some.inj h ▸ (imConversation_spec w a name).1
  | recvMessage v sender text action =>
    simp only [runRegistered] at h
    split at h
    · next hv => exact recvMessage_goes hw hreg hv (fun hf hchat => hf hreg ⟨hv, hchat⟩) h
    · exact Option.some.inj h ▸ .refl w
  | privmsg target text dcc => exact privmsg_goes hw h
  | flush n =>
    simp only [runRegistered] at h
    split at h
    · exact flush_goes h
    · exact Option.some.inj h ▸ .refl w
  | deleteConversation v =>
    simp only [runRegistered] at h
    split at h
    · exact Option.some.inj h ▸ .refl w
    split at h
    · next hchat => exact Option.some.inj h ▸ (destroyChat_goes hw hchat).1
    · next hchat =>
      rw [Bool.not_eq_true] at hchat
      exact Option.some.inj h ▸ destroyIm_goes hw hchat
  | newChat a name => exact Option.some.inj h ▸ newChat_goes hw (hw.started hreg) a name
  | addUsers v l => exact addUsers_goes hw hreg ⟨v, l, rfl⟩ h
  | updateUser v cb =>
    simp only [runRegistered] at h
    split at h
    · next c hc => exact updateBuddy_goes hw (hw.chatChan hc).1 h
    · exact Option.some.inj h ▸ .refl w
  | removeUser v name reason =>
    simp only [runRegistered] at h
    split at h
    · split at h
      · exact Option.some.inj h ▸ part_goes hw _ _ reason
      · exact Option.some.inj h ▸ .refl w
    · exact Option.some.inj h ▸ .refl w
  | renameUser v old cb =>
    simp only [runRegistered] at h
    split at h
    · next c hc =>
      obtain ⟨hlive, hv⟩ := hw.chatChan hc
      obtain ⟨cu, hcu, h⟩ := Option.bind_eq_some_iff.mp h
      refine renameBuddy_goes hw hv (hw.chanUserNamed hlive hcu) (fun hk hT => ?_) h
      exact hT (w.chans.cuNick cu) (by simp [renames, hreg, hc, hcu, hk]) rfl
    · exact Option.some.inj h ▸ .refl w
  | topicChanged v who topic =>
    simp only [runRegistered] at h
    split at h
    · exact Option.some.inj h ▸ setTopic_goes w _ _ topic
    · exact Option.some.inj h ▸ .refl w
  | join channame =>
    simp only [runRegistered] at h
    split at h
    · exact Option.some.inj h ▸ .refl w
    split at h
    · next c hc =>
      refine Option.some.inj h ▸ (Change.join w userRef c statusOp (hw.started hreg)
        (hw.listed.getChannel.mp hc).1 hw.table.userAlive (.inl rfl) ?_).goes
      intro hk
      cases hw.table.userKind.symm.trans hk
    · exact Option.some.inj h ▸ .refl w
  | part channame reason =>
    simp only [runRegistered] at h
    split at h
    · exact Option.some.inj h ▸ part_goes hw userRef _ reason
    · exact Option.some.inj h ▸ .refl w
  | kick channame nick reason => exact Option.some.inj h ▸ kick_goes hw channame nick reason
  | kill nick reason => exact Option.some.inj h ▸ kill_goes hw nick reason
  | svsnick nick newnick =>
    exact Option.some.inj h ▸ svsnick_goes hw hreg fun n hn hT => hT n hn rfl
  | names channame =>
    simp only [runRegistered] at h
    split at h
    · next c hc =>
      exact Option.some.inj h ▸ (Change.names w c (hw.listed.getChannel.mp hc).1).goes
    · exact Option.some.inj h ▸ .refl w
  | dccSend b => exact Option.some.inj h ▸ dccSend_goes hw b
  | dccGet n =>
    simp only [runRegistered] at h
    split at h
    · next hn =>
      rw [Bool.and_eq_true] at hn
      exact Option.some.inj h ▸ addDcc_goes fun m hm => Option.some.inj hm ▸ hn.1
    · exact Option.some.inj h ▸ .refl w
  | dccFinished i => exact Option.some.inj h ▸ finishDcc_goes w i
  | dccUpdated => exact Option.some.inj h ▸ updateDcc_goes w

theorem run_goes (hw : w.Ok none) {op : Op} (h : w.run P op = some w') :
    Goes P (w.terms P op) w w' := by
  unfold run at h
  split at h
  · next D => exact Option.some.inj h ▸ (Change.data w none D).goes
  · next newnick =>
    split at h
    · exact Option.some.inj h ▸ .refl w
    · next hreg =>
      simp only [Bool.or_eq_true, Bool.not_eq_true', not_or, Bool.not_eq_true, Bool.not_eq_false]
        at hreg
      refine Option.some.inj h ▸ (Change.nick w newnick hreg.1 ?_ ?_ ?_).goes
      · exact fun hapart => hapart hreg.1 hreg.2
      · exact fun hkeep => Bool.false_ne_true (hreg.1.symm.trans hkeep)
      · exact fun hT => hT userRef (by simp [renames, hreg.1, hreg.2])
          (hw.table.home userRef hw.table.userAlive (by rw [hw.table.userKind]; rfl))
  · next accounts =>
    split at h
    · exact Option.some.inj h ▸ .refl w
    · next hs =>
      rw [Bool.not_eq_true] at hs
      exact Option.some.inj h ▸ startUp_goes hw hs accounts fun hapart => hapart hs
  · obtain rfl := Option.some.inj h
    by_cases hs : w.started = true
    · have heq : (w.registered || w.started) = true := by simp [hs]
      rw [heq]
      exact (Change.registered w hs).goes
    · have heq : (w.registered || w.started) = w.registered := by simp [hs]
      rw [heq]
      exact .refl w
  · split at h
    · exact Option.some.inj h ▸ .refl w
    · next hreg =>
      rw [Bool.not_eq_true', ← Bool.not_eq_true, not_not] at hreg
      exact registered_goes hw hreg h

theorem startUp_started (hw : w.Ok none) (accounts : List AccountRef) :
    (w.startUp P accounts).started = true := by
  have hok : ({ w with started := true }).Ok none :=
    (Change.started (P := P) (T := w.terms P .welcome) w).ok hw
  exact (foldl_create_goes (P := P) (T := w.terms P .welcome) (l := accounts) hok rfl).2.started

theorem initial_table : initial.nicks.Table := by
  have hmem : ∀ k n, (k, n) ∈ initial.nicks.users.entries → k = str "*" ∧ n = userRef := by
    intro k n h
    rw [show initial.nicks.users.entries = [(str "*", userRef)] from rfl] at h
    simpa using h
  have halive : ∀ n, initial.nicks.alive n = true → n = userRef := fun n h => beq_iff_eq.mp h
  exact {
    key := fun k n h => (hmem k n h).1.symm
    live := fun k n h => (hmem k n h).2 ▸ rfl
    bound := fun n h => halive n h ▸ Nat.zero_lt_one
    userAlive := rfl
    userKind := rfl
    userKey := ⟨userRef, List.mem_singleton.mpr rfl, rfl⟩
    conv := nofun
    distinct := nofun
    buddyNick := nofun
    home := fun _ _ _ => rfl
    remote := nofun
    nextServer := Nat.one_ne_zero }

theorem initial_ok : initial.Ok none where
  table := initial_table
  member := ⟨nofun, nofun, nofun, fun _ => .nil, fun _ => .nil, nofun, nofun⟩
  listed := ⟨fun _ h => (h rfl).elim, nofun, fun _ _ => ⟨nofun, nofun⟩, nofun, nofun⟩
  placed := ⟨fun _ h => (h rfl).elim, nofun, nofun⟩
  chats := ⟨nofun, nofun⟩
  paired := ⟨fun _ _ => ⟨nofun, nofun⟩, nofun⟩
  talks := ⟨nofun, nofun⟩
  quiet := fun _ _ _ => rfl
  early := fun _ => ⟨rfl, rfl⟩

/-- Every step that a run takes meets the condition. -/
def Along (P : Purple) (Q : World → Op → Prop) : World → List Op → Prop
  | _, [] => True
  | w, op :: ops => Q w op ∧ ∀ w' ∈ w.run P op, Along P Q w' ops

instance (P : Purple) (Q : World → Op → Prop) [∀ w op, Decidable (Q w op)] :
    ∀ (w : World) (ops : List Op), Decidable (w.Along P Q ops)
  | _, [] => inferInstanceAs (Decidable True)
  | w, op :: ops =>
    have : DecidablePred fun w' => Along P Q w' ops := fun w' => instDecidableAlong P Q w' ops
    inferInstanceAs (Decidable (Q w op ∧ ∀ w' ∈ w.run P op, Along P Q w' ops))

instance (w : World) : DecidablePred w.Apart := fun op => by
  cases op <;> dsimp only [Apart, NamesFree] <;> infer_instance

instance (w : World) : DecidablePred w.Still := fun op => by
  cases op <;> dsimp only [Still] <;> infer_instance

instance (P : Purple) (s : ServerRef) (w : World) : DecidablePred (w.Steady P s) := fun op =>
  inferInstanceAs (Decidable (∀ n ∈ w.renames P op, w.nicks.server n ≠ s))

instance (P : Purple) (w : World) : DecidablePred (w.Fair P) := fun op => by
  cases op <;> dsimp only [Fair, FairName, Fits, Convs.isIm] <;> infer_instance

/-- What the changes of each event keep holds at the end of a run. -/
theorem runAll_keeps {Q : World → Op → Prop} {I : World → Prop}
    (hstep : ∀ w op w', w.Ok none → Q w op → w.run P op = some w' → I w →
      Goes P (w.terms P op) w w' → I w')
    {ops : List Op} (hw : w.Ok none) (hI : I w) (hrun : w.Along P Q ops) : I (w.runAll P ops) := by
  induction ops generalizing w with
  | nil => exact hI
  | cons op ops ih =>
    unfold runAll
    split
    · next w' h =>
      have hgo := run_goes hw h
      exact ih (hgo.ok hw) (hstep w op w' hw hrun.1 h hI hgo) (hrun.2 w' h)
    · exact hI

theorem along_true (P : Purple) (ops : List Op) (w : World) :
    w.Along P (fun _ _ => True) ops := by
  induction ops generalizing w with
  | nil => trivial
  | cons op ops ih => exact ⟨trivial, fun w' _ => ih w'⟩

/-- The invariant holds in every state a session reaches. -/
theorem runAll_ok (P : Purple) (ops : List Op) : (initial.runAll P ops).Ok none :=
  runAll_keeps (I := fun w => w.Ok none) (fun _ _ _ _ _ _ hw hgo => hgo.ok hw)
    initial_ok initial_ok (along_true P ops initial)

end Run

end World
end Minbif

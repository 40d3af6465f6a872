import Minbif.Irc.Registration
import Minbif.ServerPoll.Carried

/-! What the lines of a client make a session write to the other processes. -/
namespace Minbif
open Effect Message Tokens

/-- The messages that one line makes a session write. -/
def emitted (P : Purple) (C : SessionConf) (T : Turn) (s : Session) (line : Str) : List Message :=
  (final ((dispatchLine P C T line).run s)).ipc.drop s.ipc.length

/-- Once its bytes are there, `ipc_read` takes the message and calls its handler. -/
def Taken (m : Message) : Prop := ∀ (s : IpcSocket) (b : Str), s.unread = m.format ++ b →
  ∃ f m', s.ipcRead (min IpcSocket.peekMax s.unread.length) =
    ⟨b, s.received ++ [.ok (.handled f m')]⟩

/-- What an operator tells all the others is no empty text, and leaves room for the command, the
nickname, three separators with a possible colon, and the end of line. -/
def Carriable (C : SessionConf) (s : Session) (line : Str) : Prop :=
  C.ipcUp = true → s.oper = true → ∀ m, parse line = .ok m →
    m.cmd = str "WALLOPS" ∨ m.cmd = str "DIE" → ∀ text, m.args.head? = some text →
      text ≠ [] ∧ m.cmd.length + s.nickname.length + text.length + 4 +
        (if hasSpace text ∨ text.head? = some ':' then 1 else 0) ≤ IpcSocket.peekMax

variable {P : Purple} {C : SessionConf} {T : Turn} {s : Session} {f : IpcCmd} {m : Message}
  {line buf nick text : Str} {l : List Str}

theorem formatArg_length (a : Str) : (formatArg a).length =
    a.length + 1 + if hasSpace a ∨ a.head? = some ':' then 1 else 0 := by
  by_cases h : hasSpace a = true ∨ a.head? = some ':'
  · rw [formatArg_colon h, if_pos h]
    rfl
  · rw [not_or, Bool.not_eq_true, hasSpace_false] at h
    rw [formatArg_word h.1 h.2, if_neg]
    · rfl
    · simpa [hasSpace_false.mpr h.1] using h.2

theorem format_pair_length (f : IpcCmd) (h : Word nick) (text : Str) :
    (Message.format { cmd := f.name, args := [nick, text] }).length =
      f.name.length + nick.length + text.length + 4 +
        if hasSpace text ∨ text.head? = some ':' then 1 else 0 := by
  rw [format_length]
  simp only [List.flatMap_cons, List.flatMap_nil, List.length_append, List.length_nil,
    formatArg_length text, formatArg_word h.noSpace h.noColon, List.length_cons]
  omega

/-- A character of a line, and a space. -/
def Plain (c : Char) : Prop := c ≠ '\r' ∧ c ≠ '\n' ∧ c ≠ '\x00'

instance : DecidablePred Plain := fun _ => inferInstanceAs (Decidable (_ ∧ _))

theorem plain_space : Plain ' ' := by decide

theorem IpcCmd.name_plain (f : IpcCmd) : ∀ c ∈ f.name, Plain c := by
  cases f <;> exact List.forall_iff_forall_mem.mp (by decide)

theorem line_plain (h : line ∈ tokens lineEnd.contains (socketRead buf)) : ∀ c ∈ line, Plain c := by
  intro c hc
  obtain ⟨hbuf, hend⟩ := tokens_chars h c hc
  have hnul : c ≠ '\x00' := by simpa using List.mem_takeWhile_imp hbuf
  simp only [lineEnd, List.contains_cons, List.contains_nil, Bool.or_false, Bool.or_eq_false_iff,
    beq_eq_false_iff_ne] at hend
  exact ⟨hend.1, hend.2, hnul⟩

theorem nick_plain (h : isValidNickname nick = true) : ∀ c ∈ nick, Plain c := by
  simp only [isValidNickname, Bool.and_eq_true, List.all_eq_true] at h
  intro c hc
  have hchar := h.2 c hc
  refine ⟨?_, ?_, ?_⟩
  all_goals
    rintro rfl
    cases hchar

theorem formatArg_plain (h : ∀ c ∈ text, Plain c) : ∀ c ∈ formatArg text, Plain c := by
  intro c hc
  unfold formatArg at hc
  rcases List.mem_cons.mp hc with rfl | hc
  · exact plain_space
  · split at hc
    · rcases List.mem_cons.mp hc with rfl | hc
      · decide
      · exact h c hc
    · exact h c hc

/-- A message of plain arguments has no line end inside. -/
theorem line_pure (f : IpcCmd) (hl : ∀ a ∈ l, ∀ c ∈ a, Plain c) :
    '\x00' ∉ IpcSocket.line { cmd := f.name, args := l } ∧
      ¬ ['\r', '\n'] <:+: IpcSocket.line { cmd := f.name, args := l } := by
  have hline : IpcSocket.line { cmd := f.name, args := l } = f.name ++ l.flatMap formatArg := by
    simp [IpcSocket.line, format, StoredEntity.isSet]
  have hplain : ∀ c ∈ IpcSocket.line { cmd := f.name, args := l }, Plain c := by
    rw [hline]
    intro c hc
    rcases List.mem_append.mp hc with hc | hc
    · exact f.name_plain c hc
    · obtain ⟨a, ha, hc⟩ := List.mem_flatMap.mp hc
      exact formatArg_plain (hl a ha) c hc
  exact ⟨fun hnul => (hplain _ hnul).2.2 rfl, fun hcr => (hplain '\r' (hcr.subset (by simp))).1 rfl⟩

theorem fits_plain (f : IpcCmd) (hl : ∀ a ∈ l, ∀ c ∈ a, Plain c)
    (hlen : (Message.format { cmd := f.name, args := l }).length ≤ IpcSocket.peekMax) :
    IpcSocket.Fits { cmd := f.name, args := l } := by
  obtain ⟨hnul, hone⟩ := line_pure f hl
  refine ⟨hlen, fun hm => ?_, hone⟩
  rw [IpcSocket.format_eq] at hm
  rcases List.mem_append.mp hm with hm | hm
  · exact hnul hm
  · revert hm
    decide

/-- A message that fits is taken off the socket, whatever becomes of it. -/
theorem ipcRead_fits {s : IpcSocket} {b : Str} (h : IpcSocket.Fits m) (hu : s.unread = m.format ++ b) :
    s.ipcRead (min IpcSocket.peekMax s.unread.length) =
      ⟨b, s.received ++ [ipcDispatch (IpcSocket.line m)]⟩ := by
  have hlen : m.format.length ≤ s.unread.length := by simp [hu]
  have hshort := h.short
  rw [IpcSocket.ipcRead_eq h hu, if_neg]
  omega

theorem taken_carried (h : Carried f m) (hfit : IpcSocket.Fits m) : Taken m := by
  intro s b hu
  refine ⟨f, back m, ?_⟩
  rw [ipcRead_fits hfit hu, h.dispatch.1]

/-- A nickname and a text arrive exactly when there is a text and the peek holds them. -/
theorem taken_pair_iff (hf : f.minArgs = 2) (hnick : isValidNickname nick = true)
    (htext : ∀ c ∈ text, Plain c) :
    Taken { cmd := f.name, args := [nick, text] } ↔
      text ≠ [] ∧ (Message.format { cmd := f.name, args := [nick, text] }).length ≤
        IpcSocket.peekMax := by
  obtain ⟨hword, -⟩ := valid_word hnick
  have hl : ∀ a ∈ [nick, text], ∀ c ∈ a, Plain c := by
    simp only [List.mem_cons, List.not_mem_nil, or_false, forall_eq_or_imp, forall_eq]
    exact ⟨nick_plain hnick, htext⟩
  have hmid : Middle [nick, text] := by simp [hasSpace_false, hword.noSpace]
  have hdispatch := ipcDispatch_line f hmid
  let m : Message := { cmd := f.name, args := [nick, text] }
  let s : IpcSocket := { unread := m.format }
  constructor
  · intro h
    obtain ⟨g, m', hread⟩ := h s [] (by simp [s, m])
    have hlen : m.format.length ≤ IpcSocket.peekMax := by
      by_contra hlong
      -- the peek ends before the line does
      obtain ⟨hnul, hone⟩ := line_pure f hl
      have hnone := IpcSocket.eol_take_short (b := []) hnul hone
        (r := min IpcSocket.peekMax s.unread.length) (by simp only [s, m] at hlong ⊢; omega)
      rw [List.append_nil] at hnone
      have hsame : s.ipcRead (min IpcSocket.peekMax s.unread.length) = s := by
        rw [IpcSocket.ipcRead, show s.unread = m.format from rfl, hnone]
      rw [hsame] at hread
      cases congrArg IpcSocket.received hread
    refine ⟨?_, hlen⟩
    rintro rfl
    rw [ipcRead_fits (fits_plain f hl hlen) (b := []) (by simp [s, m]), hdispatch,
      readBack_pair_nil hword, hf] at hread
    cases congrArg IpcSocket.received hread
  · rintro ⟨hne, hlen⟩ s b hu
    refine ⟨f, { cmd := f.name, args := [nick, lastBack text] }, ?_⟩
    rw [ipcRead_fits (fits_plain f hl hlen) hu, hdispatch, readBack_pair hword hne, hf]
    rfl

/-- What a nickname alone announces. -/
def Announced (m : Message) : Prop :=
  ∃ f nick, IpcCmd.minArgs f = 1 ∧ isValidNickname nick = true ∧ m = { cmd := f.name, args := [nick] }

theorem Announced.taken (h : Announced m) : Taken m := by
  obtain ⟨f, nick, hf, hnick, rfl⟩ := h
  have hc := carried_word hf hnick
  refine taken_carried hc (fits_plain f ?_ hc.short)
  simpa using nick_plain hnick

/-- The gate with the messages counted from here. -/
theorem Gate.from {G G' : Message → Prop} {l₀ : List Message} (h : Gate C G l₀ s) :
    Gate C G' s.ipc s :=
  ⟨h.world, h.nick, h.auth, h.oper, h.ran, [], (List.append_nil _).symm, nofun⟩

/-- Whatever is no WALLOPS and no DIE announces a nickname at most. -/
theorem emitted_announced {G : Message → Prop} {l₀ : List Message} (hs : Gate C G l₀ s)
    (hline : ∀ m, parse line = .ok m → m.cmd ≠ str "WALLOPS" ∧ m.cmd ≠ str "DIE") :
    ∀ m ∈ emitted P C T s line, Announced m := by
  have hsend : LineMaySend Announced line := by
    intro m c hm hc
    obtain ⟨hw, hd⟩ := hline m hm
    have hcmd : c.cmd = m.cmd := by simpa using List.find?_some hc
    have hmem := List.mem_of_find?_eq_some hc
    have hboth : ∀ c ∈ commands, (c.handler = .wallops → c.cmd = str "WALLOPS") ∧
        (c.handler = .die → c.cmd = str "DIE") := by decide
    cases hh : c.handler with
    | nick => exact fun n hn => ⟨.user, n, rfl, hn, rfl⟩
    | user => exact fun n hn => ⟨.user, n, rfl, hn, rfl⟩
    | oper => exact fun n hn => ⟨.oper, n, rfl, hn, rfl⟩
    | wallops => exact (hw (hcmd ▸ (hboth c hmem).1 hh)).elim
    | die => exact (hd (hcmd ▸ (hboth c hmem).2 hh)).elim
    | _ => trivial
  have hline := triple_line (P := P) (T := T) hsend s
    (show Gate C Announced s.ipc s from hs.from)
  have hipc : ∃ l, (final ((dispatchLine P C T line).run s)).ipc = s.ipc ++ l ∧
      ∀ m ∈ l, Announced m := by
    cases hr : (dispatchLine P C T line).run s with
    | ok a t => exact (by simpa only [hr] using hline : Gate C Announced s.ipc t).ipc
    | error e t => exact (by simpa only [hr] using hline : Gate C Announced s.ipc t).ipc
  obtain ⟨l, hl, hall⟩ := hipc
  intro m hm
  rw [emitted, hl, List.drop_left] at hm
  exact hall m hm

theorem ipcSend_run (cmd : Str) (hnick : Word nick) (text : Str) (s : Session) :
    (ipcSend C cmd [nick, text]).run s = .ok C.ipcUp { s with
      ipc := s.ipc ++ if C.ipcUp = true then [{ cmd := cmd, args := [nick, text] }] else [] } := by
  have hmid : Middle [nick, text] := by simp [hasSpace_false, hnick.noSpace]
  have hargs : addArgs { cmd := cmd } [nick, text] = .ok { cmd := cmd, args := [nick, text] } := by
    rw [addArgs_eq middle_nil]
    exact if_pos hmid
  unfold ipcSend
  rw [hargs]
  cases hup : C.ipcUp with
  | true => rfl
  | false => simp

theorem sendUser_ipc (cmd : Str) (sender receiver : StoredEntity) (args : List Str) (s : Session) :
    (final ((sendUser cmd sender receiver args).run s)).ipc = s.ipc := by
  unfold sendUser
  split <;> rfl

theorem quit_ipc (reason : Str) (s : Session) : (final ((quit reason).run s)).ipc = s.ipc := by
  have hsend := sendUser_ipc (str "ERROR") .unset .unset [str "Closing Link: " ++ reason] s
  unfold quit
  rw [EStateM.run_bind]
  split
  · next a t ht =>
    rw [ht] at hsend
    exact hsend
  · next e t ht =>
    rw [ht] at hsend
    exact hsend

/-- The handlers of WALLOPS and DIE write the nickname of the operator, and the text. -/
theorem handler_oper (hf : f = .wallops ∨ f = .die) {rest : List Str}
    (hargs : m.args = text :: rest) :
    ∃ h, commands.find? (·.cmd == f.name) = some ⟨f.name, h, 1, .oper⟩ ∧
      ∀ t : Session, Word t.nickname → (final ((h.run P C T m).run t)).ipc =
        t.ipc ++ if C.ipcUp = true then [{ cmd := f.name, args := [t.nickname, text] }] else [] := by
  have harg : Minbif.getArg m 0 = pure text := by simp [Minbif.getArg, Message.getArg, hargs]
  rcases hf with rfl | rfl
  · refine ⟨.wallops, rfl, fun t ht => ?_⟩
    have hsend := ipcSend_run (C := C) (str "WALLOPS") ht text t
    simp only [Handler.run, m_wallops, harg, pure_bind, EStateM.run_bind, EStateM.run_get, hsend]
    rfl
  · refine ⟨.die, rfl, fun t ht => ?_⟩
    have hsend := ipcSend_run (C := C) (str "DIE") ht text t
    simp only [Handler.run, m_die, harg, pure_bind, EStateM.run_bind, EStateM.run_get, hsend]
    split
    · exact quit_ipc _ _
    · rfl

theorem emitted_oper (hf : f = .wallops ∨ f = .die) (hm : parse line = .ok m)
    (hcmd : m.cmd = f.name) (hnick : s.oper = true → Word s.nickname) :
    emitted P C T s line = if C.ipcUp = true ∧ s.oper = true then
      (m.args.head?.map fun text => { cmd := f.name, args := [s.nickname, text] }).toList else [] := by
  have hsilent : (∀ c, ¬ Admits s m c) → emitted P C T s line = [] := by
    intro hno
    obtain ⟨sent, hrun⟩ := dispatchLine_refuses (P := P) (C := C) (T := T) hm hno
    rw [emitted, hrun, final_ok, List.drop_length]
  obtain ⟨h, hfind, -⟩ := handler_oper (P := P) (C := C) (T := T) hf
    (m := { m with args := [[]] }) rfl
  have hentry : ∀ c, Admits s m c → c = ⟨f.name, h, 1, .oper⟩ := by
    intro c hc
    have hsame := hc.entry
    rw [hcmd, hfind] at hsame
    exact (Option.some.inj hsame).symm
  cases hargs : m.args with
  | nil =>
    rw [hsilent]
    · simp
    · intro c hc
      have hlen := hc.args
      rw [hentry c hc, hargs] at hlen
      cases hlen
  | cons text rest =>
    cases ho : s.oper with
    | false =>
      rw [hsilent]
      · simp
      · intro c hc
        have hflag := hc.flag
        rw [hentry c hc, Session.hasFlag, ho] at hflag
        cases hflag
    | true =>
      obtain ⟨h', hfind', hrun⟩ := handler_oper (P := P) (C := C) (T := T) hf hargs
      have hadmit : Admits s m ⟨f.name, h', 1, .oper⟩ := ⟨hcmd ▸ hfind', by simp [hargs], ho⟩
      have hran := hrun { s with ran := s.ran ++ [⟨f.name, s.registered, s.oper, s.quits.length⟩] }
        (hnick ho)
      rw [emitted, dispatchLine_admits hm hadmit]
      dsimp only
      rw [hran, List.drop_left]
      simp [Session.nickname]

/-- In every state a session reaches and for every line of a read: `ipc_read` takes what the line
makes the session write, and calls its handler, exactly when an operator's text for all is not
empty and leaves room. -/
theorem line_taken_iff {es : List SessionEvent} {accounts : AuthState}
    (h : Runs.run (Session.step P C) (Session.initial accounts) es = some s)
    (hline : line ∈ tokens lineEnd.contains (socketRead buf)) :
    (∀ m ∈ emitted P C T s line, Taken m) ↔ Carriable C s line := by
  have hgate := run_gate h
  have hvalid : s.oper = true → isValidNickname s.nickname = true := by
    intro ho
    rcases hgate.nick with ⟨hreg, -⟩ | hvalid
    · cases hreg.symm.trans (hgate.oper ho).1
    · exact hvalid
  obtain ⟨m, hm, -⟩ := parse_ok line
  by_cases hcmd : ∃ f : IpcCmd, (f = .wallops ∨ f = .die) ∧ m.cmd = f.name
  · obtain ⟨f, hf, hcmd⟩ := hcmd
    have hmin : f.minArgs = 2 := by rcases hf with rfl | rfl <;> rfl
    have hwhich : m.cmd = str "WALLOPS" ∨ m.cmd = str "DIE" := by
      rw [hcmd]
      exact hf.imp (congrArg IpcCmd.name) (congrArg IpcCmd.name)
    rw [emitted_oper hf hm hcmd fun ho => (valid_word (hvalid ho)).1]
    by_cases hgo : C.ipcUp = true ∧ s.oper = true
    · obtain ⟨hup, ho⟩ := hgo
      rw [if_pos ⟨hup, ho⟩]
      have htaken : ∀ text, m.args.head? = some text →
          (Taken { cmd := f.name, args := [s.nickname, text] } ↔ text ≠ [] ∧
            m.cmd.length + s.nickname.length + text.length + 4 +
              (if hasSpace text ∨ text.head? = some ':' then 1 else 0) ≤ IpcSocket.peekMax) := by
        intro text htext
        have hplain := parse_chars plain_space (line_plain hline) hm text
          (List.mem_of_head? htext)
        rw [taken_pair_iff hmin (hvalid ho) hplain,
          format_pair_length f (valid_word (hvalid ho)).1, hcmd]
      constructor
      · intro hall _ _ m' hm' _ text htext
        obtain rfl := Except.ok.inj (hm.symm.trans hm')
        exact (htaken text htext).mp (hall _ (by simp [htext]))
      · intro hcarry x hx
        cases htext : m.args.head? with
        | none => simp [htext] at hx
        | some text =>
          obtain rfl : x = { cmd := f.name, args := [s.nickname, text] } := by
            simpa [htext] using hx
          exact (htaken text htext).mpr (hcarry hup ho m hm hwhich text htext)
    · rw [if_neg hgo]
      exact ⟨fun _ hup ho => (hgo ⟨hup, ho⟩).elim, fun _ => nofun⟩
  · have hother : m.cmd ≠ str "WALLOPS" ∧ m.cmd ≠ str "DIE" :=
      ⟨fun hw => hcmd ⟨.wallops, .inl rfl, hw⟩, fun hd => hcmd ⟨.die, .inr rfl, hd⟩⟩
    constructor
    · intro _ _ _ m' hm' hwhich
      obtain rfl := Except.ok.inj (hm.symm.trans hm')
      exact (hwhich.elim hother.1 hother.2).elim
    · intro _ x hx
      refine (emitted_announced hgate (fun m' hm' => ?_) x hx).taken
      obtain rfl := Except.ok.inj (hm.symm.trans hm')
      exact hother

theorem line_taken_alice : ∃ s, Runs.run (Session.step World.noPurple openConf) (Session.initial {})
    aliceLines = some s ∧
      ((∀ m ∈ emitted World.noPurple openConf {} s (str "WALLOPS :lunch at noon"), Taken m) ↔
        Carriable openConf s (str "WALLOPS :lunch at noon")) := by
  have hrun : (Runs.run (Session.step World.noPurple openConf) (Session.initial {})
      aliceLines).isSome = true := by decide +kernel
  obtain ⟨s, hs⟩ := Option.isSome_iff_exists.mp hrun
  have hline : str "WALLOPS :lunch at noon" ∈
      tokens lineEnd.contains (socketRead (str "WALLOPS :lunch at noon\r\n")) := by decide +kernel
  exact ⟨s, hs, line_taken_iff hs hline⟩

/-- A text that no peek holds, in a line that one read holds. -/
def longLine : Str := str "WALLOPS " ++ List.replicate 500 'a'

/-- An operator's long text stays in front of the socket for ever. -/
theorem line_wedges : ¬ ∀ (P : Purple) (C : SessionConf) (T : Turn) (accounts : AuthState)
    (es : List SessionEvent) (s : Session) (buf line : Str), buf.length ≤ 1023 →
    Runs.run (Session.step P C) (Session.initial accounts) es = some s →
    line ∈ tokens lineEnd.contains (socketRead buf) → ∀ m ∈ emitted P C T s line, Taken m := by
  intro h
  let m : Message := { cmd := str "WALLOPS", args := [str "alice", List.replicate 500 'a'] }
  have hrun : (Runs.run (Session.step World.noPurple openConf) (Session.initial {})
      aliceLines).map (fun s => emitted World.noPurple openConf {} s longLine) = some [m] := by
    decide +kernel
  obtain ⟨s, hs, hemit⟩ := Option.map_eq_some_iff.mp hrun
  have htaken := h World.noPurple openConf {} {} aliceLines s (longLine ++ lineEnd) longLine
    (by decide +kernel) hs (by decide +kernel) m (by simp [hemit])
  obtain ⟨f, m', hread⟩ := htaken { unread := m.format } [] (by simp)
  have hstuck : (({ unread := m.format } : IpcSocket).ipcRead
      (min IpcSocket.peekMax m.format.length)).received = [] := by decide +kernel
  rw [hread] at hstuck
  cases hstuck

end Minbif

import FortyTwo.Webserv.ConfigComposition
import FortyTwo.Webserv.ConfigNumbers
import FortyTwo.Webserv.ConfigTotality

/-!
The `listen` directives of a configuration file: which tokens they are made of, which
entries the parser makes of them, and when every entry has an address of four octets
and a port.
-/

namespace FortyTwo.Webserv

open Foundation TokenParser ConfigParser
open ConfigTokens (Inner AnyType Writes Scanned Reported)

section Words

/-- An address with what stands behind its colon. -/
abbrev ListenWord := Bytes × Option Bytes

/-- Where a token stands: in no `listen` directive, in front of an address, behind the
colon of one. -/
inductive ListenMode where
  | outside | address | port

/-- What stands behind a colon, if there is one. -/
def portBehind : List Token → Option Bytes
  | colon :: port :: _ => if colon.type = .colon then some port.lexeme else none
  | _ => none

/-- What the `listen` directives of a file name. -/
def listenWords : ListenMode → List Token → List ListenWord
  | _, [] => []
  | .outside, t :: rest => listenWords (if t.type = .listen then .address else .outside) rest
  | .address, t :: rest =>
      if t.type = .identifier then (t.lexeme, portBehind rest) :: listenWords .address rest
      else listenWords (if t.type = .colon then .port else .outside) rest
  | .port, _ :: rest => listenWords .address rest

variable {c rest : List Token}

theorem listenWords_outside (hc : ∀ t ∈ c, Inner t.type) :
    listenWords .outside (c ++ rest) = listenWords .outside rest := by
  induction c with
  | nil => rfl
  | cons t c ih =>
      have ht : t.type ≠ .listen := hc t List.mem_cons_self
      rw [List.cons_append, listenWords, if_neg ht]
      exact ih fun u hu => hc u (List.mem_cons_of_mem _ hu)

/-- The text of the port, as `parseListen` has it. -/
def portText (word : ListenWord) : Bytes :=
  match word.2 with
  | some port => port
  | none =>
      if (replaceLocalhost word.1).contains (byteOf '.') then [] else replaceLocalhost word.1

/-- The entry that the word becomes. -/
def listenEntry (word : ListenWord) : Listen where
  host := if replaceLocalhost word.1 = portText word then bytes "0.0.0.0"
    else replaceLocalhost word.1
  port := if portText word = [] then -1 else atoi (portText word)

/-- The checks of `parseListen` on a word. -/
structure Checked (word : ListenWord) : Prop where
  address : ((replaceLocalhost word.1).contains (byteOf '.') = true ∨ word.2.isSome = true) →
    checkAddress (replaceLocalhost word.1) = .ok ()
  port : ∃ n, convertPort (portText word) = .ok n
  address_ne : word.1 ≠ []
  port_ne : ∀ port, word.2 = some port → port ≠ []

end Words

section Round

variable {entries entries' : List Listen} {t u : Token} {l rest r : List Token}

theorem convertPort_eq {port : Bytes} {n : Int} (h : convertPort port = .ok n) :
    n = if port = [] then -1 else atoi port := by
  unfold convertPort at h
  split_ifs at h with hnil hdigit hrange
  · cases h
    rw [if_pos hnil]
  · cases h
    rw [if_neg hnil]

theorem portOf_ok {temp port : Bytes} (h : portOf temp (u :: rest) = .ok (port, r)) :
    r = u :: rest ∧
      if temp.contains (byteOf '.') = true ∨ u.type = .colon then
        checkAddress temp = .ok () ∧ port = []
      else port = temp := by
  rw [portOf, bind_of_ok _ (check_cons .colon u rest)] at h
  have hcolon : (u.type != TokenType.endOfFile && u.type == TokenType.colon) = true ↔
      u.type = .colon := by
    constructor
    · intro hcheck
      simpa using (Bool.and_eq_true_iff.mp hcheck).2
    · intro heq
      rw [heq]
      rfl
  by_cases haddress : temp.contains (byteOf '.') = true ∨ u.type = .colon
  · rw [if_pos (by rw [Bool.or_eq_true, hcolon]; exact haddress)] at h
    obtain ⟨_, m, hlift, hpure⟩ := bind_ok_iff.mp h
    obtain ⟨hcheck, rfl⟩ := lift_ok_iff.mp hlift
    obtain ⟨rfl, rfl⟩ := pure_ok_iff.mp hpure
    exact ⟨rfl, by rw [if_pos haddress]; exact ⟨hcheck, rfl⟩⟩
  · rw [if_neg (by rw [Bool.or_eq_true, hcolon]; exact haddress)] at h
    obtain ⟨rfl, rfl⟩ := pure_ok_iff.mp h
    exact ⟨rfl, by rw [if_neg haddress]⟩

theorem portBehindColon_ok {port port' : Bytes}
    (h : portBehindColon port (u :: rest) = .ok (port', r)) :
    if u.type = .colon then ∃ token, rest = token :: r ∧ token.type = .identifier ∧
        port' = token.lexeme
      else r = u :: rest ∧ port' = port := by
  rw [portBehindColon, bind_of_ok _ (check_cons .colon u rest)] at h
  by_cases hcolon : u.type = .colon
  · rw [if_pos (by rw [hcolon]; rfl), bind_of_ok _ (consume_cons (by decide) "" rest hcolon)] at h
    rw [if_pos hcolon]
    obtain ⟨token, m, hconsume, hpure⟩ := bind_ok_iff.mp h
    obtain ⟨rfl, htoken⟩ := consume_ok hconsume
    obtain ⟨rfl, rfl⟩ := pure_ok_iff.mp hpure
    exact ⟨token, rfl, htoken, rfl⟩
  · rw [if_neg (by simp [hcolon])] at h
    rw [if_neg hcolon]
    obtain ⟨rfl, rfl⟩ := pure_ok_iff.mp h
    exact ⟨rfl, rfl⟩

/-- The word at a token, and the text of its port. -/
private theorem listenWord_ok (hl : Scanned (t :: l)) (ht : t.type = .identifier)
    {port port' : Bytes} {m : List Token}
    (hfirst : portOf (replaceLocalhost t.lexeme) l = .ok (port, m))
    (hsecond : portBehindColon port m = .ok (port', r)) :
    ∃ word : ListenWord, word.1 = t.lexeme ∧ portText word = port' ∧
      (((replaceLocalhost word.1).contains (byteOf '.') = true ∨ word.2.isSome = true) →
        checkAddress (replaceLocalhost word.1) = .ok ()) ∧
      (∀ port, word.2 = some port → port ≠ []) ∧
      listenWords .address (t :: l) = word :: listenWords .address r := by
  cases l with
  | nil => cases hfirst
  | cons u rest =>
  obtain ⟨rfl, hport⟩ := portOf_ok hfirst
  have hbehind := portBehindColon_ok hsecond
  by_cases hu : u.type = .colon
  · rw [if_pos hu] at hbehind
    obtain ⟨token, rfl, htoken, rfl⟩ := hbehind
    rw [if_pos (Or.inr hu)] at hport
    refine ⟨(t.lexeme, some token.lexeme), rfl, rfl, fun _ => hport.1, ?_, ?_⟩
    · rintro _ ⟨⟩
      exact hl.lexeme token (by simp) (by rw [htoken]; decide)
    · simp [listenWords, ht, hu, portBehind]
  · rw [if_neg hu] at hbehind
    obtain ⟨rfl, rfl⟩ := hbehind
    have hnone : portBehind (u :: rest) = none := by
      cases rest with
      | nil => rfl
      | cons token rest => exact if_neg hu
    refine ⟨(t.lexeme, none), rfl, ?_, ?_, nofun, ?_⟩
    · rw [portText]
      by_cases hdot : (replaceLocalhost t.lexeme).contains (byteOf '.') = true
      · rw [if_pos (Or.inl hdot)] at hport
        rw [hport.2, if_pos hdot]
      · rw [if_neg (not_or.mpr ⟨hdot, hu⟩)] at hport
        rw [hport, if_neg hdot]
    · rintro (hdot | hsome)
      · rw [if_pos (Or.inl hdot)] at hport
        exact hport.1
      · cases hsome
    · rw [listenWords, if_pos ht, hnone]

/-- An entry is the one its word becomes, and is no duplicate. -/
theorem listenRound_ok (hl : Scanned l) {step : ForInStep (List Listen)}
    (h : listenRound entries l = .ok (step, r)) :
    (∃ word, step = .yield (entries ++ [listenEntry word]) ∧ Checked word ∧
        checkDuplicateListen entries (listenEntry word) = .ok () ∧
        listenWords .address l = word :: listenWords .address r) ∨
      step = .done entries ∧ r = l := by
  cases l with
  | nil => cases h
  | cons t rest =>
  rw [listenRound, bind_of_ok _ (check_cons .identifier t rest)] at h
  by_cases ht : t.type = .identifier
  · rw [if_pos (by rw [ht]; rfl), bind_of_ok _ (consume_cons (by decide) _ rest ht)] at h
    obtain ⟨port, m, hfirst, hrun⟩ := bind_ok_iff.mp h
    obtain ⟨port', m', hsecond, hrun⟩ := bind_ok_iff.mp hrun
    obtain ⟨n, _, hlift, hrun⟩ := bind_ok_iff.mp hrun
    obtain ⟨hconvert, rfl⟩ := lift_ok_iff.mp hlift
    obtain ⟨_, _, hlift, hrun⟩ := bind_ok_iff.mp hrun
    obtain ⟨hduplicate, rfl⟩ := lift_ok_iff.mp hlift
    obtain ⟨rfl, rfl⟩ := pure_ok_iff.mp hrun
    obtain ⟨word, hword, hport, haddress, hne, hwords⟩ := listenWord_ok hl ht hfirst hsecond
    have hentry : listenEntry word =
        ⟨if replaceLocalhost t.lexeme = port' then bytes "0.0.0.0" else replaceLocalhost t.lexeme,
          n⟩ := by
      rw [listenEntry, hword, hport, convertPort_eq hconvert]
    have hnamed : word.1 ≠ [] := by
      rw [hword]
      exact hl.lexeme t List.mem_cons_self (by rw [ht]; decide)
    refine Or.inl ⟨word, by rw [hentry], ⟨haddress, ⟨n, by rw [hport, hconvert]⟩, hnamed, hne⟩,
      by rw [hentry]; exact hduplicate, hwords⟩
  · rw [if_neg (by simp [ht])] at h
    obtain ⟨rfl, rfl⟩ := pure_ok_iff.mp h
    exact Or.inr ⟨rfl, rfl⟩

end Round

section Entries

/-- No two of the entries have the same host and port. -/
def Distinct (entries : List Listen) : Prop :=
  entries.Pairwise fun a b => ¬(a.host = b.host ∧ a.port = b.port)

/-- The entries of the words have been added, each behind its checks. -/
structure Adds (entries : List Listen) (words : List ListenWord) (entries' : List Listen) :
    Prop where
  entries_eq : entries' = entries ++ words.map listenEntry
  checked : ∀ word ∈ words, Checked word
  distinct : Distinct entries → Distinct entries'

variable {entries entries' entries'' : List Listen} {words words' : List ListenWord}
  {l m r : List Token} {temp temp' : Config}

theorem Adds.nil (entries : List Listen) : Adds entries [] entries :=
  ⟨by simp, nofun, id⟩

theorem Adds.append (h : Adds entries words entries') (h' : Adds entries' words' entries'') :
    Adds entries (words ++ words') entries'' where
  entries_eq := by rw [h'.entries_eq, h.entries_eq, List.map_append, List.append_assoc]
  checked := List.forall_mem_append.mpr ⟨h.checked, h'.checked⟩
  distinct := fun hdistinct => h'.distinct (h.distinct hdistinct)

/-- The comparison of the two names finds an entry that is there. -/
theorem Adds.one {word : ListenWord} (hword : Checked word)
    (hduplicate : checkDuplicateListen entries (listenEntry word) = .ok ()) :
    Adds entries [word] (entries ++ [listenEntry word]) where
  entries_eq := rfl
  checked := by simpa using hword
  distinct := by
    intro hdistinct
    refine List.pairwise_append.mpr ⟨hdistinct, List.pairwise_singleton _ _, ?_⟩
    rintro other hother _ hentry ⟨hhost, hport⟩
    obtain rfl := List.mem_singleton.mp hentry
    have hany : entries.any (fun other => listenName other == listenName (listenEntry word)) := by
      refine List.any_eq_true.mpr ⟨other, hother, ?_⟩
      rw [listenName, listenName, hhost, hport, beq_self_eq_true]
    rw [checkDuplicateListen, if_pos hany] at hduplicate
    cases hduplicate

/-- What reading from `l` to `r` outside of a `listen` directive adds to the entries. -/
def Listens (entries : List Listen) (l : List Token) (entries' : List Listen) (r : List Token) :
    Prop :=
  ∃ words, listenWords .outside l = words ++ listenWords .outside r ∧ Adds entries words entries'

theorem Listens.trans (h : Listens entries l entries' m) (h' : Listens entries' m entries'' r) :
    Listens entries l entries'' r := by
  obtain ⟨words, hl, hadds⟩ := h
  obtain ⟨words', hm, hadds'⟩ := h'
  exact ⟨words ++ words', by rw [hl, hm, List.append_assoc], hadds.append hadds'⟩

theorem listens_inner {c : List Token} (hc : ∀ t ∈ c, Inner t.type) :
    Listens entries (c ++ r) entries r :=
  ⟨[], listenWords_outside hc, Adds.nil entries⟩

private theorem listenLoop_ok (fuel : Nat) (hl : Scanned l)
    (h : loopFrom .outOfFuel listenRound fuel entries l = .ok (entries', r)) :
    ∃ words, listenWords .address l = words ++ listenWords .address r ∧
      Adds entries words entries' := by
  induction fuel generalizing entries l with
  | zero => cases h
  | succ fuel ih =>
      obtain ⟨step, m, hround, hrest⟩ := bind_ok_iff.mp h
      obtain ⟨_, _, _, _, hm⟩ := (ConfigTokens.writes_listenRound entries).read hl hround
      rcases listenRound_ok hl hround with
        ⟨word, rfl, hword, hduplicate, hwords⟩ | ⟨rfl, rfl⟩
      · obtain ⟨words, hmore, hadds⟩ := ih hm hrest
        refine ⟨word :: words, ?_, (Adds.one hword hduplicate).append hadds⟩
        rw [hwords, hmore, List.cons_append]
      · obtain ⟨rfl, rfl⟩ := pure_ok_iff.mp hrest
        exact ⟨[], rfl, Adds.nil entries⟩

theorem parseListen_ok {t : Token} (ht : t.type = .listen) (hl : Scanned l)
    (h : parseListen entries l = .ok (entries', r)) : Listens entries (t :: l) entries' r := by
  obtain ⟨a, m, hloop, hrest⟩ := bind_ok_iff.mp h
  obtain ⟨token, _, hconsume, hpure⟩ := bind_ok_iff.mp hrest
  obtain ⟨rfl, htoken⟩ := consume_ok hconsume
  obtain ⟨rfl, rfl⟩ := pure_ok_iff.mp hpure
  obtain ⟨words, hwords, hadds⟩ := listenLoop_ok _ hl hloop
  refine ⟨words, ?_, hadds⟩
  rw [listenWords, if_pos ht, hwords, listenWords, htoken, if_neg (by decide), if_neg (by decide)]

/-- A directive that is no `listen` keeps the entries. -/
private theorem listens_directive {α : Type} {value : ConfigParser α} {V : α → List Token → Prop}
    (hvalue : Writes Inner value V) {f : α → Config} {t : Token} (ht : Inner t.type)
    (hl : Scanned l) (h : (value >>= fun a => pure (f a)) l = .ok (temp', r))
    (hf : ∀ a, (f a).listen = temp.listen) :
    Listens temp.listen (t :: l) temp'.listen r := by
  obtain ⟨a, m, ha, hpure⟩ := bind_ok_iff.mp h
  obtain ⟨rfl, rfl⟩ := pure_ok_iff.mp hpure
  obtain ⟨c, rfl, hc, _⟩ := hvalue.read hl ha
  rw [hf]
  exact listens_inner (c := t :: c) (by simpa using ⟨ht, hc⟩)

/-- One of the tests of a directive's keyword. -/
private theorem keyword_ok {α : Type} {type : TokenType} (htype : type ≠ .endOfFile) {t : Token}
    {rest : List Token} {p q : ConfigParser α} {a : α}
    (h : (tokenMatch type >>= fun found => if found = true then p else q) (t :: rest) =
      .ok (a, r)) :
    (t.type = type ∧ p rest = .ok (a, r)) ∨ t.type ≠ type ∧ q (t :: rest) = .ok (a, r) := by
  rw [bind_of_ok _ (tokenMatch_cons htype t rest)] at h
  by_cases ht : t.type = type
  · rw [decide_eq_true ht, if_pos rfl, if_pos ht] at h
    exact Or.inl ⟨ht, h⟩
  · rw [decide_eq_false ht, if_neg Bool.false_ne_true, if_neg ht] at h
    exact Or.inr ⟨ht, h⟩

theorem serverDirective_listens (hl : Scanned l) (h : serverDirective temp l = .ok (temp', r)) :
    Listens temp.listen l temp'.listen r := by
  obtain ⟨common, m, hcommon, hrest⟩ := bind_ok_iff.mp h
  obtain ⟨c, rfl, hc, _, hm⟩ := (ConfigTokens.writes_commonDirective _).read hl hcommon
  apply (listens_inner hc).trans
  cases common with
  | some common =>
      obtain ⟨rfl, rfl⟩ := pure_ok_iff.mp hrest
      exact listens_inner (c := []) nofun
  | none =>
      cases m with
      | nil => cases hrest
      | cons t rest =>
      rcases keyword_ok (by decide) hrest with ⟨ht, hrest⟩ | ⟨_, hrest⟩
      · obtain ⟨entries, m, hentries, hpure⟩ := bind_ok_iff.mp hrest
        obtain ⟨rfl, rfl⟩ := pure_ok_iff.mp hpure
        exact parseListen_ok ht (hm.tail (by rw [ht]; decide)) hentries
      rcases keyword_ok (by decide) hrest with ⟨ht, hrest⟩ | ⟨_, hrest⟩
      · exact listens_directive (ConfigTokens.writes_parseServerName _) (by rw [ht]; decide)
          (hm.tail (by rw [ht]; decide)) hrest fun _ => rfl
      rcases keyword_ok (by decide) hrest with ⟨ht, hrest⟩ | ⟨_, hrest⟩
      · exact listens_directive (ConfigTokens.writes_parseLocation _) (by rw [ht]; decide)
          (hm.tail (by rw [ht]; decide)) hrest fun _ => rfl
      rcases keyword_ok (by decide) hrest with ⟨ht, hrest⟩ | ⟨_, hrest⟩
      · exact listens_directive (ConfigTokens.writes_statement (by decide) _
          ConfigTokens.writes_parseTimeout) (by rw [ht]; decide) (hm.tail (by rw [ht]; decide)) hrest
          fun _ => rfl
      · cases hrest

/-- A round reads a directive, or is the last. -/
theorem serverRound_listens (hl : Scanned l) {step : ForInStep Config}
    (h : serverRound temp l = .ok (step, r)) :
    (∃ temp', step = .yield temp' ∧ serverDirective temp l = .ok (temp', r)) ∨
      step = .done temp ∧ r = l := by
  cases l with
  | nil => cases h
  | cons t rest =>
  rw [serverRound, bind_of_ok _ (check_cons .rightBrace t rest)] at h
  split at h
  · obtain ⟨rfl, rfl⟩ := pure_ok_iff.mp h
    exact Or.inr ⟨rfl, rfl⟩
  · rw [bind_of_ok _ (tokenIsAtEnd_cons t rest)] at h
    split at h
    · obtain ⟨rfl, rfl⟩ := pure_ok_iff.mp h
      exact Or.inr ⟨rfl, rfl⟩
    · obtain ⟨temp', m, hdirective, hpure⟩ := bind_ok_iff.mp h
      obtain ⟨rfl, rfl⟩ := pure_ok_iff.mp hpure
      exact Or.inl ⟨temp', rfl, hdirective⟩

private theorem serverLoop_listens (fuel : Nat) (hl : Scanned l)
    (h : loopFrom .outOfFuel serverRound fuel temp l = .ok (temp', r)) :
    Listens temp.listen l temp'.listen r ∧ Scanned r := by
  induction fuel generalizing temp l with
  | zero => cases h
  | succ fuel ih =>
      obtain ⟨step, m, hround, hrest⟩ := bind_ok_iff.mp h
      obtain ⟨_, _, _, _, hm⟩ := (ConfigTokens.writes_serverRound temp).read hl hround
      rcases serverRound_listens hl hround with ⟨after, rfl, hdirective⟩ | ⟨rfl, rfl⟩
      · obtain ⟨hlistens, hr⟩ := ih hm hrest
        exact ⟨(serverDirective_listens hl hdirective).trans hlistens, hr⟩
      · obtain ⟨rfl, rfl⟩ := pure_ok_iff.mp hrest
        exact ⟨listens_inner (c := []) nofun, hl⟩

theorem serverBlock_listens (hl : Scanned l) (h : serverBlock temp l = .ok (temp', r)) :
    Listens [] l temp'.listen r ∧ Scanned r := by
  obtain ⟨left, m, hleft, hblock⟩ := bind_ok_iff.mp h
  obtain ⟨rfl, hlefttype⟩ := consume_ok hleft
  obtain ⟨after, m', hloop, hend⟩ := bind_ok_iff.mp hblock
  obtain ⟨right, m'', hright, hlift⟩ := bind_ok_iff.mp hend
  obtain ⟨rfl, hrighttype⟩ := consume_ok hright
  obtain ⟨hcheck, rfl⟩ := lift_ok_iff.mp hlift
  have hsame : after = temp' := by
    rw [checkForEmpty] at hcheck
    split at hcheck
    · cases hcheck
    · exact Except.ok.inj hcheck
  subst hsame
  obtain ⟨hlistens, hm⟩ := serverLoop_listens _ (hl.tail (by rw [hlefttype]; decide)) hloop
  refine ⟨?_, hm.tail (by rw [hrighttype]; decide)⟩
  have hopen : Listens [] (left :: m) [] m :=
    listens_inner (c := [left]) (by simpa using by rw [hlefttype]; decide)
  have hclose : Listens after.listen (right :: m'') after.listen m'' :=
    listens_inner (c := [right]) (by simpa using by rw [hrighttype]; decide)
  exact (hopen.trans hlistens).trans hclose

/-- The entries of a file are those of its words. -/
theorem blocks_listen {configs : List Config} (hl : Scanned l)
    (h : Blocks temp l configs temp' r) :
    ∃ words, listenWords .outside l = words ++ listenWords .outside r ∧
      (configs.flatMap fun config => config.listen) = words.map listenEntry ∧
      (∀ word ∈ words, Checked word) ∧ ∀ config ∈ configs, Distinct config.listen := by
  induction h with
  | nil temp l => exact ⟨[], rfl, rfl, nofun, nofun⟩
  | @block temp x temp' t l m r configs hserver hblock hrest ih =>
      obtain ⟨⟨words, hwords, hadds⟩, hm⟩ :=
        serverBlock_listens (hl.tail (by rw [hserver]; decide)) hblock
      obtain ⟨words', hwords', hentries, hchecked, hdistinct⟩ := ih hm
      refine ⟨words ++ words', ?_, ?_, List.forall_mem_append.mpr ⟨hadds.checked, hchecked⟩, ?_⟩
      · rw [listenWords, if_neg (by rw [hserver]; decide), hwords, hwords', List.append_assoc]
      · rw [List.flatMap_cons, hentries, hadds.entries_eq, List.map_append, List.nil_append]
      · exact List.forall_mem_cons.mpr ⟨hadds.distinct List.Pairwise.nil, hdistinct⟩

end Entries

section Address

variable {address octet : Bytes}

/-- A decimal number from 0 to 255. -/
structure IsOctet (octet : Bytes) : Prop where
  digits : ∀ c ∈ octet, isDigit c = true
  octet_ne : octet ≠ []
  value : decimalValue octet ≤ 255

/-- Four octets with dots between them. -/
structure IsAddress (host : Bytes) : Prop where
  four : (host.splitOn (byteOf '.')).length = 4
  octets : ∀ octet ∈ host.splitOn (byteOf '.'), IsOctet octet

/-- What an address should be that one can listen on. -/
structure ListenOk (entry : Listen) : Prop where
  host : IsAddress entry.host
  port : 0 ≤ entry.port ∧ entry.port ≤ 65535

private theorem dot_not_digit {text : Bytes} (h : ∀ c ∈ text, isDigit c = true) :
    byteOf '.' ∉ text := by
  intro hmem
  cases h _ hmem

/-- The loop splits the address at its dots; `octet` is the part it is in. -/
private theorem addressLoop_ok {temp rest : Bytes} {i dotCount lastDot dots last : Nat}
    (hdrop : temp.drop lastDot = octet ++ rest) (hi : i = lastDot + octet.length)
    (hoctet : ∀ c ∈ octet, isDigit c = true)
    (h : addressLoop temp i dotCount lastDot rest = .ok (dots, last)) :
    ∃ octets, (octet ++ rest).splitOn (byteOf '.') = octets ++ [temp.drop last] ∧
      dots = dotCount + octets.length ∧ (∀ o ∈ octets, isOctet o = true) ∧
      ∀ o ∈ octets ++ [temp.drop last], ∀ c ∈ o, isDigit c = true := by
  induction rest generalizing octet i dotCount lastDot with
  | nil =>
      cases h
      rw [List.append_nil] at hdrop
      refine ⟨[], ?_, rfl, nofun, by simpa [hdrop] using hoctet⟩
      rw [List.append_nil, List.splitOn_eq_singleton (dot_not_digit hoctet), hdrop, List.nil_append]
  | cons c rest ih =>
      rw [addressLoop] at h
      split at h
      · cases h
      · rename_i hcheck
        split at h
        · rename_i hdot
          subst hdot
          split at h
          · cases h
          · split at h
            · cases h
            · rename_i hvalue
              have htake : (temp.drop lastDot).take (i - lastDot) = octet := by
                rw [hdrop, hi, Nat.add_sub_cancel_left, List.take_left]
              have hbehind : temp.drop (i + 1) = [] ++ rest := by
                rw [hi, Nat.add_assoc, ← List.drop_drop, hdrop, ← List.drop_drop, List.drop_left]
                rfl
              obtain ⟨octets, hsplit, hdots, hoctets, hdigits⟩ := ih hbehind rfl nofun h
              refine ⟨octet :: octets, ?_, ?_, ?_, ?_⟩
              · rw [List.splitOn_append_cons_self_of_not_mem (dot_not_digit hoctet), ← List.nil_append rest,
                  hsplit, List.cons_append]
              · rw [hdots, List.length_cons]
                omega
              · refine List.forall_mem_cons.mpr ⟨?_, hoctets⟩
                rw [htake] at hvalue
                simpa using hvalue
              · exact List.forall_mem_cons.mpr ⟨hoctet, hdigits⟩
        · rename_i hdot
          have hc : isDigit c = true := by simpa [hdot] using hcheck
          have happend : octet ++ c :: rest = (octet ++ [c]) ++ rest := by simp
          rw [happend] at hdrop ⊢
          refine ih hdrop ?_ ?_ h
          · rw [List.length_append, List.length_singleton, hi, Nat.add_assoc]
          · exact List.forall_mem_append.mpr ⟨hoctet, by simpa using hc⟩

/-- What the checks of an address have seen. -/
theorem checkAddress_ok (h : checkAddress address = .ok ()) :
    (address.splitOn (byteOf '.')).length = 4 ∧
      ∀ octet ∈ address.splitOn (byteOf '.'), isOctet octet = true ∧ ∀ c ∈ octet, isDigit c = true := by
  rw [checkAddress] at h
  cases hloop : addressLoop address 0 0 0 address with
  | error e =>
      rw [hloop] at h
      cases h
  | ok x =>
      obtain ⟨dots, last⟩ := x
      rw [hloop] at h
      change (if dots ≠ 3 then _ else _ : Except ParserError Unit) = _ at h
      have hstart : address.drop 0 = [] ++ address := rfl
      obtain ⟨octets, hsplit, hdots, hoctets, hdigits⟩ := addressLoop_ok hstart rfl nofun hloop
      rw [List.nil_append] at hsplit
      split at h
      · cases h
      · rename_i hthree
        split at h
        · cases h
        · rename_i hlast
          rw [hsplit]
          refine ⟨?_, fun octet hoctet => ⟨?_, hdigits octet hoctet⟩⟩
          · rw [List.length_append, List.length_singleton]
            omega
          · rcases List.mem_append.mp hoctet with hfront | hend
            · exact hoctets octet hfront
            · rw [List.mem_singleton.mp hend]
              simpa using hlast

/-- The host of an entry that is only a port. -/
private theorem isAddress_any : IsAddress (bytes "0.0.0.0") := by
  have hsplit : (bytes "0.0.0.0").splitOn (byteOf '.') = List.replicate 4 (bytes "0") := by decide
  have hzero : IsOctet (bytes "0") := ⟨by decide +kernel, by decide, by decide⟩
  refine ⟨by rw [hsplit, List.length_replicate], ?_⟩
  intro octet hoctet
  rw [hsplit] at hoctet
  rw [List.eq_of_mem_replicate hoctet]
  exact hzero

/-- The number of digits that `atoi` finds in range is in range, unless it wraps around. -/
theorem value_of_isOctet (hoctet : isOctet octet = true) (hdigits : ∀ c ∈ octet, isDigit c = true)
    (hne : octet ≠ []) (hvalue : decimalValue octet < 2 ^ 32) : decimalValue octet ≤ 255 := by
  have hleading : LeadingDigits octet octet [] :=
    ⟨(List.append_nil octet).symm, hdigits, nofun⟩
  rw [isOctet, atoi, atol_of_digits hleading hne, toInt, Bool.and_eq_true, decide_eq_true_eq,
    decide_eq_true_eq] at hoctet
  omega

end Address

section Words

variable {word : ListenWord} {text : Bytes} {configs : List Config}

/-- If the word is an address, a port stands behind it, and no octet of it is empty or
from 2^32 on. -/
def Complete (word : ListenWord) : Prop :=
  (replaceLocalhost word.1).contains (byteOf '.') = true → word.2.isSome = true ∧
    ∀ octet ∈ (replaceLocalhost word.1).splitOn (byteOf '.'),
      octet ≠ [] ∧ decimalValue octet < 2 ^ 32

private theorem replaceLocalhost_ne (h : text ≠ []) : replaceLocalhost text ≠ [] := by
  rw [replaceLocalhost]
  split
  · rename_i position _
    have hne : bytes "127.0.0.1" ≠ [] := by decide
    simp [hne]
  · exact h

/-- The port of an entry is in range unless there is none. -/
private theorem Checked.port_iff (h : Checked word) :
    0 ≤ (listenEntry word).port ∧ (listenEntry word).port ≤ 65535 ↔ portText word ≠ [] := by
  obtain ⟨n, hn⟩ := h.port
  rw [listenEntry]
  change 0 ≤ (if portText word = [] then -1 else atoi (portText word)) ∧
    (if portText word = [] then -1 else atoi (portText word)) ≤ 65535 ↔ _
  by_cases hnil : portText word = []
  · simp [hnil]
  · rw [convertPort, if_neg hnil] at hn
    split_ifs at hn with hdigit hrange
    rw [if_neg hnil]
    simp only [hnil, ne_eq, not_false_eq_true, iff_true]
    omega

/-- The digits of a port are not an address. -/
private theorem Checked.dot_not_mem (h : Checked word) : byteOf '.' ∉ portText word := by
  obtain ⟨n, hn⟩ := h.port
  intro hmem
  have hnil : portText word ≠ [] := List.ne_nil_of_mem hmem
  rw [convertPort, if_neg hnil] at hn
  have hdigit : hasNonDigit (portText word) = true :=
    List.any_eq_true.mpr ⟨_, hmem, by decide⟩
  rw [if_pos hdigit] at hn
  cases hn

theorem Checked.listenOk_iff (h : Checked word) : ListenOk (listenEntry word) ↔ Complete word := by
  by_cases hdot : (replaceLocalhost word.1).contains (byteOf '.') = true
  · obtain ⟨hfour, hoctets⟩ := checkAddress_ok (h.address (Or.inl hdot))
    have hhost : (listenEntry word).host = replaceLocalhost word.1 := by
      apply if_neg
      intro heq
      apply h.dot_not_mem
      rw [← heq]
      exact List.contains_iff_mem.mp hdot
    have hport : portText word ≠ [] ↔ word.2.isSome = true := by
      cases hword : word.2 with
      | none => simp [portText, hword, List.contains_iff_mem.mp hdot]
      | some port => simp [portText, hword, h.port_ne port hword]
    constructor
    · intro hok _
      refine ⟨hport.mp (h.port_iff.mp hok.port), ?_⟩
      intro octet hoctet
      rw [← hhost] at hoctet
      have hvalue := (hok.host.octets octet hoctet).value
      exact ⟨(hok.host.octets octet hoctet).octet_ne, by omega⟩
    · intro hcomplete
      obtain ⟨hsome, hall⟩ := hcomplete hdot
      refine ⟨?_, h.port_iff.mpr (hport.mpr hsome)⟩
      rw [hhost]
      refine ⟨hfour, ?_⟩
      intro octet hoctet
      obtain ⟨hrange, hdigits⟩ := hoctets octet hoctet
      obtain ⟨hne, hvalue⟩ := hall octet hoctet
      exact ⟨hdigits, hne, value_of_isOctet hrange hdigits hne hvalue⟩
  · have hnone : word.2 = none := by
      by_contra hsome
      have hcheck := h.address (Or.inr (Option.isSome_iff_ne_none.mpr hsome))
      have hfour := (checkAddress_ok hcheck).1
      rw [List.splitOn_eq_singleton (by simpa using hdot)] at hfour
      cases hfour
    have htext : portText word = replaceLocalhost word.1 := by
      rw [portText, hnone]
      exact if_neg hdot
    have hhost : (listenEntry word).host = bytes "0.0.0.0" := if_pos htext.symm
    refine ⟨fun _ hdot' => absurd hdot' hdot, fun _ => ⟨?_, ?_⟩⟩
    · rw [hhost]
      exact isAddress_any
    · rw [h.port_iff, htext]
      exact replaceLocalhost_ne h.address_ne

/-- Every entry can be listened on, and no two of a server are the same. -/
def ListensWell (configs : List Config) : Prop :=
  ∀ config ∈ configs, (∀ entry ∈ config.listen, ListenOk entry) ∧ Distinct config.listen

/-- Exactly when every address has a port behind it, and no octet that `atoi` lets pass
without being one. -/
theorem listensWell_iff (h : parse text = .ok configs) :
    ListensWell configs ↔
      ∀ word ∈ listenWords .outside (scanTokens (text ++ [10])), Complete word := by
  obtain ⟨_, _, temp, hblocks⟩ := parse_eq_ok_iff.mp h
  obtain ⟨words, hwords, hentries, hchecked, hdistinct⟩ :=
    blocks_listen (ConfigTokens.scanned_scanTokens _) hblocks
  have hend : listenWords .outside [endOfFile] = [] := rfl
  rw [hwords, hend, List.append_nil]
  have hall : (∀ config ∈ configs, ∀ entry ∈ config.listen, ListenOk entry) ↔
      ∀ word ∈ words, ListenOk (listenEntry word) := by
    rw [← List.forall_mem_flatMap, hentries, List.forall_mem_map]
  constructor
  · intro hwell word hword
    exact (hchecked word hword).listenOk_iff.mp
      (hall.mp (fun config hconfig => (hwell config hconfig).1) word hword)
  · intro hcomplete config hconfig
    refine ⟨hall.mpr (fun word hword => ?_) config hconfig, hdistinct config hconfig⟩
    exact (hchecked word hword).listenOk_iff.mpr (hcomplete word hword)

private def complete : Bytes := bytes "server\x7blisten 10.0.0.1:8080;server_name a;\x7d"

private theorem parse_complete : parse complete =
    .ok [{ serverName := [bytes "a"], listen := [⟨bytes "10.0.0.1", 8080⟩] }] := by
  decide +kernel

theorem listensWell_complete :
    ListensWell [{ serverName := [bytes "a"], listen := [⟨bytes "10.0.0.1", 8080⟩] }] := by
  apply (listensWell_iff parse_complete).mpr
  have hwords : listenWords .outside (scanTokens (complete ++ [10])) =
      [(bytes "10.0.0.1", some (bytes "8080"))] := by decide +kernel
  rw [hwords]
  intro word hword _
  rw [List.mem_singleton.mp hword]
  exact ⟨rfl, by decide +kernel⟩

/-- An address without a port. -/
theorem not_listensWell_address :
    ∃ text configs, parse text = .ok configs ∧ ¬ListensWell configs := by
  refine ⟨bytes "server\x7blisten 127.0.0.1;server_name a;\x7d",
    [{ serverName := [bytes "a"], listen := [⟨bytes "127.0.0.1", -1⟩] }], by decide +kernel, ?_⟩
  intro hwell
  have hport := ((hwell _ List.mem_cons_self).1 _ List.mem_cons_self).port.1
  revert hport
  decide

end Words

end FortyTwo.Webserv

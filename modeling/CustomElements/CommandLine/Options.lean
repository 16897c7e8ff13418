import CustomElements.Failure
import CustomElements.Text.Numeral

/-!
# Options

The arguments of a command line as options. A long option may be shortened as long as it is not
ambiguous, and its argument may follow an equals sign. Short options may be joined, and an argument
may follow at once.
-/

namespace CustomElements

/-- What a command line asks for. -/
structure Options where
  config : Option Path := none
  outDir : Option Path := none
  projectFile : Option Path := none
  rootDir : Option Path := none
  outputs : List Text := []
  buildTarget : Option Text := none
  /-- Sources whose metadata is to be completed. -/
  normalize : List Path := []
  logFile : Option Path := none
  verbose : Bool := false

inductive OptionKind where
  | help
  | config
  | outDir
  | projectFile
  | rootDir
  | output
  | buildTarget
  | normalize
  | logFile
  | verbose
deriving DecidableEq, Repr

namespace OptionKind

def takesArgument : OptionKind → Bool
  | help | verbose => false
  | _ => true

def names : List (Text × OptionKind) :=
  [("-h", help), ("--help", help), ("-c", config), ("--config", config), ("-o", outDir),
    ("--out-dir", outDir), ("-t", projectFile), ("--tsconfig", projectFile),
    ("--root-dir", rootDir), ("--output", output), ("--build-target", buildTarget),
    ("--normalize", normalize), ("--log-file", logFile), ("-v", verbose), ("--verbose", verbose)]

end OptionKind

/-- Why a command line asks for no run. -/
inductive UsageStop where
  /-- It is not understood. -/
  | misused
  /-- It asks for help. -/
  | help
deriving DecidableEq, Repr

/-- What is joined to an option: a text, after an equals sign or at once. -/
structure Joined where
  afterEquals : Bool
  text : Text

/-- What an argument can be. -/
inductive ArgumentKind where
  | plain
  /-- Two hyphens, after which all arguments are plain. -/
  | separator
  | option (kind : OptionKind) (long : Bool) (joined : Option Joined)
  | unknownOption

/-- The text before the first equals sign, and the one after it. -/
def splitEquals (t : Text) : Text × Option Text :=
  let before := t.takeWhile fun p => decide (p ≠ .scalar '=')
  if before.length < t.length then (before, some (t.drop (before.length + 1))) else (t, none)

def isDigits (t : Text) : Bool := !t.isEmpty && t.all fun p => p.decimalDigit?.isSome

/-- Whether an argument is a negative number; a line feed at its end does not count. -/
def isNegativeNumber (t : Text) : Bool :=
  let body := if t.getLast? = some (.scalar '\n') then t.dropLast else t
  match body with
  | .scalar '-' :: r =>
    isDigits r || match r.dropWhile fun p => p.decimalDigit?.isSome with
      | .scalar '.' :: q => isDigits q
      | _ => false
  | _ => false

/-- The options that a shortened or joined option can stand for. -/
def optionCandidates (t : Text) : List ArgumentKind :=
  if Text.startsWith t "--" then
    let (lead, text) := splitEquals t
    (OptionKind.names.filter fun n => Text.startsWith n.1 lead).map fun n =>
      .option n.2 true (text.map fun s => ⟨true, s⟩)
  else
    (OptionKind.names.filter fun n => decide (n.1 = t.take 2)).map fun n =>
      .option n.2 false (some ⟨false, t.drop 2⟩)

def argumentKind (t : Text) : Except UsageStop ArgumentKind :=
  match t with
  | [] => .ok .plain
  | [.scalar '-'] => .ok .plain
  | .scalar '-' :: _ =>
    let long := Text.startsWith t "--"
    let (name, argument) := splitEquals t
    match OptionKind.names.lookup t, OptionKind.names.lookup name, argument with
    | some k, _, _ => .ok (.option k long none)
    | none, some k, some s => .ok (.option k long (some ⟨true, s⟩))
    | none, _, _ =>
      match optionCandidates t with
      | [a] => .ok a
      | _ :: _ :: _ => .error .misused
      | [] =>
        if isNegativeNumber t || t.any fun p => decide (p = .scalar ' ') then .ok .plain
        else .ok .unknownOption
  | _ => .ok .plain

def argumentKinds : List Text → Except UsageStop (List (Text × ArgumentKind))
  | [] => .ok []
  | t :: ts =>
    if t = ("--" : Text) then .ok ((t, .separator) :: ts.map fun s => (s, .plain))
    else do return (t, ← argumentKind t) :: (← argumentKinds ts)

/-- An option without an argument of its own, with what is joined to it: a row of short options. -/
inductive ShortRow where
  /-- All of them, the last one perhaps with an argument that is joined to it. -/
  | complete (options : List (OptionKind × Option Text))
  /-- The last one takes the argument that follows. -/
  | awaiting (options : List OptionKind) (last : OptionKind)
  /-- After these comes something that is no option. -/
  | broken (options : List OptionKind)

/-- Reads a row of short options, the first one being `kind`. -/
def shortRow (kind : OptionKind) (long : Bool) (joined : Option Joined) (before : List OptionKind) :
    Nat → Except UsageStop ShortRow
  | 0 => .error .misused
  | fuel + 1 =>
    match joined with
    | none =>
      if kind.takesArgument then .ok (.awaiting before kind)
      else .ok (.complete ((before ++ [kind]).map fun k => (k, none)))
    | some j =>
      if kind.takesArgument then
        .ok (.complete (before.map (fun k => (k, none)) ++ [(kind, some j.text)]))
      else match j.text with
        | [] => .error .misused
        | p :: rest =>
          if long || j.afterEquals || p = .scalar '-' then .error .misused
          else match OptionKind.names.lookup [.scalar '-', p] with
            | none => .ok (.broken (before ++ [kind]))
            | some next =>
              let joined := match rest with
                | [] => none
                | .scalar '=' :: r => some ⟨true, r⟩
                | r => some ⟨false, r⟩
              shortRow next false joined (before ++ [kind]) fuel

def Options.set (o : Options) (kind : OptionKind) (argument : Text) : Except UsageStop Options :=
  let path := Path.ofText argument
  match kind with
  | .help => .error .help
  | .config => .ok { o with config := some path }
  | .outDir => .ok { o with outDir := some path }
  | .projectFile => .ok { o with projectFile := some path }
  | .rootDir => .ok { o with rootDir := some path }
  | .output =>
    if supportedOutputs.contains argument then .ok { o with outputs := o.outputs ++ [argument] }
    else .error .misused
  | .buildTarget => .ok { o with buildTarget := some argument }
  | .normalize => .ok { o with normalize := o.normalize ++ [path] }
  | .logFile => .ok { o with logFile := some path }
  | .verbose => .ok { o with verbose := true }

def Options.setAll (o : Options) (options : List (OptionKind × Option Text)) :
    Except UsageStop Options :=
  options.foldlM (fun o s => o.set s.1 (s.2.getD [])) o

/--
Reads arguments. An argument that belongs to no option is a misuse, but only once all options have
been taken into account; `stray` tells whether there was one.
-/
def Options.read (o : Options) (stray : Bool) :
    List (Text × ArgumentKind) → Except UsageStop Options
  | [] => if stray then .error .misused else .ok o
  | (t, .option kind long joined) :: rest => do
    match ← shortRow kind long joined [] (t.length + 1) with
    | .complete options => Options.read (← o.setAll options) stray rest
    | .broken options => Options.read (← o.setAll (options.map fun k => (k, none))) true rest
    | .awaiting options last =>
      match rest with
      | (argument, .plain) :: rest =>
        let o ← o.setAll (options.map (fun k => (k, none)) ++ [(last, some argument)])
        Options.read o stray rest
      | _ => .error .misused
  | _ :: rest => Options.read o true rest

def Options.parse (arguments : List Text) : Except UsageStop Options := do
  Options.read {} false (← argumentKinds arguments)

end CustomElements

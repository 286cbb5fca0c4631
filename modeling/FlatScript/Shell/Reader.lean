import FlatScript.Shell.Token

namespace FlatScript.Shell.Reading

mutual

/-- Reads what is left of a part of a word, and passes over the character that ends it; `before`
holds what has been read, the last part first. -/
def readParts : Nat → Context → Word → Read Word
  | 0, _, _ => throw "Too long"
  | fuel + 1, x, before => do
    let literal := x.isLiteral
    let document := (← get).document?.isSome
    let run ← takeChars (!x.isSpecial document ·)
    let before := if run.isEmpty then before else pushText literal run before
    let onWith (text : Octets) : Read Word := do
      skipChar
      readParts fuel x (pushText literal text before)
    let mark (parts : Word) : Word := if document then parts else .mark :: parts
    let quoted (x : Context) : Read Word := do
      skipChar
      readParts fuel x (mark before)
    match (← get).text with
    | [] =>
      match x.complaint? with
      | none => return before.reverse
      | some complaint =>
        throw (if document && complaint != "Missing '))'" then "Missing '\x7d'" else complaint)
    | '\\' :: rest =>
      match rest with
      | [] => setText 0 []; readParts fuel x (pushText true ['\\'] before)
      | c :: rest =>
        let kept := x.isLiteral && c != '\\' && c != '\x60' && c != '$' &&
          (c != '"' || document && !x.inBraces) && (c != '\x7d' || !x.inBraces)
        setText 0 rest
        readParts fuel x (pushText true (if kept then ['\\', c] else [c]) before)
    | '$' :: _ =>
      if (← get).inMark then onWith ['$']
      else
        skipChar
        match ← readDollar fuel x with
        | some part => readParts fuel x (part :: before)
        | none => readParts fuel x (pushText literal ['$'] before)
    | '\x60' :: rest =>
      if (← get).inMark then
        setText 0 rest
        readParts fuel x (pushText true ['\x60'] before)
      else
        skipChar
        let part ← readBackquoted fuel x
        readParts fuel x (part :: before)
    | '\'' :: rest =>
      let text := rest.takeWhile (· != '\'')
      let behind := rest.drop text.length
      setText (text.count '\n') behind.tail
      if behind.isEmpty then throw "Unterminated quoted string"
      readParts fuel x (mark (pushText true text (mark before)))
    | '"' :: _ =>
      match x with
      | .quotes _ => skipChar; return (mark before).reverse
      | .quotedBraces inner => quoted (.quotedBraces !inner)
      | x => do
        skipChar
        let parts ← readParts fuel (.quotes x.inBraces) (mark [])
        readParts fuel x (parts.reverse ++ before)
    | '\x7d' :: _ =>
      match x with
      | .braces | .quotedBraces false => skipChar; return before.reverse
      | _ => onWith ['\x7d']
    | '\n' :: _ =>
      match x with
      | .word => return before.reverse
      | x =>
        skipChar
        let before := pushText literal ['\n'] before
        if ← beginLine then
          if x == .document then return before.reverse
          throw "Missing '\x7d'"
        readParts fuel x before
    | '(' :: _ =>
      match x with
      | .arithmetic depth =>
        skipChar
        readParts fuel (.arithmetic (depth + 1)) (pushText literal ['('] before)
      | _ => return before.reverse
    | ')' :: _ =>
      match x with
      | .arithmetic 0 =>
        skipChar
        if ← passChar ')' then return before.reverse
        readParts fuel x (pushText literal [')'] before)
      | .arithmetic (depth + 1) =>
        skipChar
        readParts fuel (.arithmetic depth) (pushText literal [')'] before)
      | _ => return before.reverse
    | _ => return before.reverse
termination_by structural fuel => fuel

def readDollar : Nat → Context → Read (Option WordPart)
  | 0, _ => throw "Too long"
  | fuel + 1, x => do
    match ← peekChar with
    | some '(' =>
      skipChar
      if ← passChar '(' then
        return some (.arithmetic (← readParts fuel (.arithmetic 0) []))
      let r ← get
      set { r with announced := [], document? := none }
      let body ← readList fuel true
      let t ← nextToken fuel
      if !t.isSymbol ")" then unexpected t "\")\""
      emptyDocuments
      modify fun after => { after with announced := r.announced, document? := r.document? }
      return some (.substitution body)
    | some '\x7b' =>
      skipChar
      some <$> readBraces fuel x
    | some c =>
      if isNameStart c then
        return some (.parameter (← takeChars isNamePart) .plain false [])
      else if c.isDigit || ['$', '?', '!', '#', '*', '@', '-'].contains c then
        skipChar
        return some (.parameter [c] .plain false [])
      else return none
    | none => return none
termination_by structural fuel => fuel

def readBraces : Nat → Context → Read WordPart
  | 0, _ => throw "Too long"
  | fuel + 1, x => do
    let isSpecial (c : Char) := c.isDigit || ['$', '?', '!', '#', '*', '@', '-'].contains c
    let quoted : Context := if x.isLiteral then .quotedBraces false else .braces
    let onWith (name : Octets) (form : ParameterForm) (orNull : Bool) (x : Context) :
        Read WordPart := do
      return .parameter name form orNull (readHome (← readParts fuel x []))
    let readName : Read Octets := do
      match ← peekChar with
      | some c =>
        if isNameStart c then takeChars isNamePart
        else if c.isDigit then takeChars Char.isDigit
        else if c != '\x7d' && isSpecial c then skipChar; return [c]
        else return []
      | none => return []
    let readForm (name : Octets) : Read WordPart := do
      let orNull ← passChar ':'
      let c ← peekChar
      match c with
      | some '\x7d' =>
        skipChar
        if orNull then onWith name .plain true quoted
        else return .parameter name .plain false []
      | some '-' => skipChar; onWith name .fallback orNull quoted
      | some '=' => skipChar; onWith name .assignment orNull quoted
      | some '+' => skipChar; onWith name .alternative orNull quoted
      | some '?' => skipChar; onWith name .complaint orNull quoted
      | some c =>
        if orNull || c != '#' && c != '%' then skipChar; onWith name .invalid orNull quoted
        else
          skipChar
          let longest ← passChar c
          onWith name (.trimmed (c == '%') longest) false .braces
      | none => onWith name .invalid orNull quoted
    if (← peekChar) = some '#' then
      skipChar
      match ← peekChar with
      | some c =>
        if isNamePart c then
          let name ← readName
          onWith name (if (← peekChar) = some '\x7d' then .length else .invalid) false quoted
        else
          let before ← get
          skipChar
          if c != '\x7d' && (← peekChar) = some '\x7d' then
            onWith [c] (if isSpecial c then .length else .invalid) false quoted
          else
            set before
            readForm ['#']
      | none => onWith [] .invalid false quoted
    else
      match ← readName with
      | [] => onWith [] .invalid false quoted
      | name => readForm name
termination_by structural fuel => fuel

/-- Reads a substitution in backquotes. In these some characters may be behind a backslash, which is
dropped before the text is read as commands. -/
def readBackquoted : Nat → Context → Read WordPart
  | 0, _ => throw "Too long"
  | fuel + 1, x => do
    let rec split (breaks : Nat) (taken : Octets) : Octets → Option (Nat × Octets × Octets)
      | [] => none
      | '\x60' :: text => some (breaks, taken.reverse, text)
      | '\\' :: '\n' :: text => split (breaks + 1) taken text
      | '\\' :: c :: text =>
        let dropped := c == '\\' || c == '\x60' || c == '$' || x.isLiteral && c == '"'
        split breaks (if dropped then c :: taken else c :: '\\' :: taken) text
      | c :: text => split (if c = '\n' then breaks + 1 else breaks) (c :: taken) text
    match split 0 [] (← get).text with
    | none => throw "EOF in backquote substitution"
    | some (breaks, text, rest) =>
      let r ← get
      set { r with text, line := 1, announced := [], document? := none }
      let body ← readList fuel true
      emptyDocuments
      modify fun after =>
        { after with text := rest, line := r.line + breaks, ahead := none, announced := r.announced,
                     document? := r.document? }
      return .substitution body
termination_by structural fuel => fuel

def readDocuments : Nat → Read Unit
  | 0 => throw "Too long"
  | fuel + 1 => do
    match (← get).announced with
    | [] => return
    | a :: announced =>
      modify fun r => { r with announced, document? := some a }
      if a.literal then
        let text ← literalLines ((← get).text.length + 1) []
        addDocument a.number [.text true text.reverse]
      else if ← beginLine then addDocument a.number []
      else addDocument a.number (← readParts fuel .document [])
      modify fun r => { r with document? := none }
      readDocuments fuel
termination_by structural fuel => fuel

def readToken : Nat → Read Token
  | 0 => throw "Too long"
  | fuel + 1 => do
    skipBlanks
    let either (c : Char) (one : String) : Read Token := do
      skipChar
      if ← passChar c then return .symbol (.ofList [c, c])
      return .symbol one
    match (← get).text with
    | [] => return .finish
    | '\n' :: _ =>
      skipChar
      readDocuments fuel
      return .newline
    | '&' :: _ => either '&' "&"
    | '|' :: _ => either '|' "|"
    | ';' :: _ => either ';' ";"
    | '(' :: _ => skipChar; return .symbol "("
    | ')' :: _ => skipChar; return .symbol ")"
    | '<' :: _ | '>' :: _ => readRedirection none
    | _ =>
      let parts ← readParts fuel .word []
      match parts, ← peekChar with
      | [.text false [d]], some c =>
        if d.isDigit && (c == '<' || c == '>') then
          readRedirection (some (d.toNat - '0'.toNat))
        else return .word parts
      | parts, _ => return .word (if (← get).inMark then parts else readHome parts)
termination_by structural fuel => fuel

def peekToken : Nat → Read Token
  | 0 => throw "Too long"
  | fuel + 1 => do
    match (← get).ahead with
    | some t => return t
    | none =>
      let t ← readToken fuel
      modify fun r => { r with ahead := some t }
      return t
termination_by structural fuel => fuel

def nextToken : Nat → Read Token
  | 0 => throw "Too long"
  | fuel + 1 => do
    let t ← peekToken fuel
    modify fun r => { r with ahead := none }
    return t
termination_by structural fuel => fuel

def skipNewlines : Nat → Read Unit
  | 0 => throw "Too long"
  | fuel + 1 => do
    if (← peekToken fuel).isNewline then
      let _ ← nextToken fuel
      skipNewlines fuel
termination_by structural fuel => fuel

def readReserved : Nat → String → Read Unit
  | 0, _ => throw "Too long"
  | fuel + 1, word => do
    let t ← nextToken fuel
    if !t.isReserved word then unexpected t ("\"" ++ word ++ "\"")
termination_by structural fuel => fuel

def readList : Nat → Bool → Read (List Command)
  | 0, _ => throw "Too long"
  | fuel + 1, mayBeEmpty => do
    skipNewlines fuel
    let t ← peekToken fuel
    match t with
    | .finish => return []
    | t =>
      if mayBeEmpty && t.endsList then return []
      let first ← readAndOr fuel
      let t ← peekToken fuel
      if t.isSymbol "&" || t.isSymbol ";" then
        let _ ← nextToken fuel
        let first := if t.isSymbol "&" then .background first else first
        return first :: (← readList fuel true)
      if t.isNewline then return first :: (← readList fuel true)
      return [first]
termination_by structural fuel => fuel

def readAndOr : Nat → Read Command
  | 0 => throw "Too long"
  | fuel + 1 => do
    let first ← readPipeline fuel
    readAndOrRest fuel first
termination_by structural fuel => fuel

def readAndOrRest : Nat → Command → Read Command
  | 0, _ => throw "Too long"
  | fuel + 1, first => do
    let t ← peekToken fuel
    if t.isSymbol "&&" || t.isSymbol "||" then
      let _ ← nextToken fuel
      skipNewlines fuel
      let second ← readPipeline fuel
      readAndOrRest fuel (if t.isSymbol "&&" then .both first second else .either first second)
    else return first
termination_by structural fuel => fuel

def readPipeline : Nat → Read Command
  | 0 => throw "Too long"
  | fuel + 1 => do
    let negated := (← peekToken fuel).isReserved "!"
    if negated then
      let _ ← nextToken fuel
    let body ←
      match ← readStages fuel with
      | [only] => pure only
      | stages => pure (.pipeline stages)
    return if negated then .negated body else body
termination_by structural fuel => fuel

def readStages : Nat → Read (List Command)
  | 0 => throw "Too long"
  | fuel + 1 => do
    let first ← readCommand fuel
    if (← peekToken fuel).isSymbol "|" then
      let _ ← nextToken fuel
      skipNewlines fuel
      return first :: (← readStages fuel)
    else return [first]
termination_by structural fuel => fuel

def readCommand : Nat → Read Command
  | 0 => throw "Too long"
  | fuel + 1 => do
    let t ← peekToken fuel
    .onLine (← get).line <$> match t with
    | .redirection .. => readSimple fuel [] [] []
    | .symbol "(" => do
      let _ ← nextToken fuel
      let body ← readList fuel false
      let t ← nextToken fuel
      if !t.isSymbol ")" then unexpected t "\")\""
      return .subshell body (← readRedirects fuel)
    | .word _ =>
      match t.reserved? with
      | none => readSimple fuel [] [] []
      | some word => do
        let _ ← nextToken fuel
        let body ← readCompound fuel word
        let redirects ← readRedirects fuel
        return if redirects.isEmpty then body else .redirected body redirects
    | t => unexpected t ""
termination_by structural fuel => fuel

def readCompound : Nat → String → Read Command
  | 0, _ => throw "Too long"
  | fuel + 1, word => do
    match word with
    | "\x7b" =>
      let body ← readList fuel false
      readReserved fuel "\x7d"
      return .group body
    | "if" => readConditional fuel
    | "while" | "until" =>
      let condition ← readList fuel false
      readReserved fuel "do"
      let body ← readList fuel false
      readReserved fuel "done"
      return .loop (word == "until") condition body
    | "for" =>
      match ← nextToken fuel with
      | .word [.text false name] =>
        if !isName name then throw "Bad for loop variable"
        skipNewlines fuel
        let words ← readForWords fuel
        skipNewlines fuel
        readReserved fuel "do"
        let body ← readList fuel false
        readReserved fuel "done"
        return .forEach name words body
      | _ => throw "Bad for loop variable"
    | "case" =>
      match ← nextToken fuel with
      | .word parts =>
        skipNewlines fuel
        readReserved fuel "in"
        return .choice parts (← readBranches fuel)
      | t => unexpected t "word"
    | word => throw ("\"" ++ word ++ "\" unexpected")
termination_by structural fuel => fuel

/-- Reads the words that a loop goes through, which are the arguments if there is no `in`. -/
def readForWords : Nat → Read (List Word)
  | 0 => throw "Too long"
  | fuel + 1 => do
    let t ← peekToken fuel
    if t.isReserved "in" then
      let _ ← nextToken fuel
      let words ← readWords fuel
      let t ← nextToken fuel
      if !t.isNewline && !t.isSymbol ";" then unexpected t ""
      return words
    if t.isSymbol ";" then
      let _ ← nextToken fuel
    return [everyArgument]
termination_by structural fuel => fuel

def readWords : Nat → Read (List Word)
  | 0 => throw "Too long"
  | fuel + 1 => do
    match ← peekToken fuel with
    | .word parts =>
      let _ ← nextToken fuel
      return parts :: (← readWords fuel)
    | _ => return []
termination_by structural fuel => fuel

def readConditional : Nat → Read Command
  | 0 => throw "Too long"
  | fuel + 1 => do
    let condition ← readList fuel false
    readReserved fuel "then"
    let body ← readList fuel false
    let t ← peekToken fuel
    if t.isReserved "elif" then
      let _ ← nextToken fuel
      return .conditional condition body [← readConditional fuel]
    if t.isReserved "else" then
      let _ ← nextToken fuel
      let otherwise ← readList fuel false
      readReserved fuel "fi"
      return .conditional condition body otherwise
    readReserved fuel "fi"
    return .conditional condition body []
termination_by structural fuel => fuel

def readBranches : Nat → Read (List (List Word × List Command))
  | 0 => throw "Too long"
  | fuel + 1 => do
    skipNewlines fuel
    let t ← peekToken fuel
    if t.isReserved "esac" then
      let _ ← nextToken fuel
      return []
    if t.isSymbol "(" then
      let _ ← nextToken fuel
    let patterns ← readPatterns fuel
    let body ← readList fuel true
    skipNewlines fuel
    let t ← nextToken fuel
    if t.isReserved "esac" then return [(patterns, body)]
    if !t.isSymbol ";;" then unexpected t "\";;\""
    return (patterns, body) :: (← readBranches fuel)
termination_by structural fuel => fuel

def readPatterns : Nat → Read (List Word)
  | 0 => throw "Too long"
  | fuel + 1 => do
    match ← nextToken fuel with
    | .word pattern =>
      let t ← nextToken fuel
      if t.isSymbol "|" then return pattern :: (← readPatterns fuel)
      if !t.isSymbol ")" then unexpected t "\")\""
      return [pattern]
    | t => unexpected t "\")\""
termination_by structural fuel => fuel

/-- Reads what is left of a simple command; what has been read comes in reverse. One word with a
pair of parentheses begins a function. -/
def readSimple : Nat → List (Octets × Word) → List Word → List Redirect → Read Command
  | 0, _, _, _ => throw "Too long"
  | fuel + 1, assignments, words, redirects => do
    let t ← peekToken fuel
    let complete : Command := .simple assignments.reverse words.reverse redirects.reverse
    match t with
    | .word parts =>
      let _ ← nextToken fuel
      match if words.isEmpty then assignment? parts else none with
      | some assignment => readSimple fuel (assignment :: assignments) words redirects
      | none => readSimple fuel assignments (parts :: words) redirects
    | .redirection .. =>
      let redirect ← readRedirect fuel
      readSimple fuel assignments words (redirect :: redirects)
    | .symbol "(" =>
      match assignments, words, redirects with
      | [], [name], [] =>
        let _ ← nextToken fuel
        let t ← nextToken fuel
        if !t.isSymbol ")" then unexpected t "\")\""
        match name with
        | [.text false name] =>
          if !isName name || specialBuiltins.contains (.ofList name) then
            throw "Bad function name"
          skipNewlines fuel
          return .function name (← readCommand fuel)
        | _ => throw "Bad function name"
      | _, _, _ => return complete
    | _ => return complete
termination_by structural fuel => fuel

def readRedirects : Nat → Read (List Redirect)
  | 0 => throw "Too long"
  | fuel + 1 => do
    match ← peekToken fuel with
    | .redirection .. =>
      let redirect ← readRedirect fuel
      return redirect :: (← readRedirects fuel)
    | _ => return []
termination_by structural fuel => fuel

def readRedirect : Nat → Read Redirect
  | 0 => throw "Too long"
  | fuel + 1 => do
    match ← nextToken fuel with
    | .redirection descriptor symbol =>
      let isDocument := symbol == "<<" || symbol == "<<-"
      modify fun r => { r with inMark := isDocument }
      let t ← nextToken fuel
      modify fun r => { r with inMark := false }
      match t with
      | .word parts =>
        match symbol with
        | "<" => return .file (descriptor.getD 0) .reading parts
        | "<>" => return .file (descriptor.getD 0) .updating parts
        | ">>" => return .file (descriptor.getD 1) .appending parts
        | "<&" => return .duplicate (descriptor.getD 0) parts
        | ">&" => return .duplicate (descriptor.getD 1) parts
        | "<<" => return .document (descriptor.getD 0) (← announce parts false)
        | "<<-" => return .document (descriptor.getD 0) (← announce parts true)
        | _ => return .file (descriptor.getD 1) .writing parts
      | t => unexpected t ""
    | t => unexpected t ""
termination_by structural fuel => fuel

/-- Reads the commands of one line, which may go on for several lines if a command does. -/
def readLine : Nat → List Command → Read (Option (List Command))
  | 0, _ => throw "Too long"
  | fuel + 1, before => do
    let t ← peekToken fuel
    match t with
    | .newline =>
      let _ ← nextToken fuel
      return some before.reverse
    | .finish =>
      emptyDocuments
      return if before.isEmpty then none else some before.reverse
    | _ =>
      let command ← readAndOr fuel
      let t ← peekToken fuel
      match t with
      | .symbol "&" =>
        let _ ← nextToken fuel
        readLine fuel (.background command :: before)
      | .symbol ";" =>
        let _ ← nextToken fuel
        readLine fuel (command :: before)
      | .newline | .finish => readLine fuel (command :: before)
      | t => unexpected t ""
termination_by structural fuel => fuel

end

def line? (r : Reading) : Except String (Option (List Command)) × Reading :=
  (readLine (16 * r.text.length + 64) []).run r

end FlatScript.Shell.Reading

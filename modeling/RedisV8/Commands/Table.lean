import RedisV8.Commands.Reading

/-!
# The command table

`redisCommandTable`, with the arities, the flags and the places of the keys.
The procedures that only work on the data set are programs; the others are
named, and `other` stands for those that change neither the data set nor what
the acceptance of commands depends on.
-/

namespace RedisV8.Commands

open Util Server Keyspace Effects

inductive Proc where
  | data (proc : Client → List Bytes → Cmd Outcome)
  | auth | ping | multi | exec | discard | watch | unwatch | asking
  | subscribe | unsubscribe | psubscribe | punsubscribe
  | replconf | shutdown | script | slaveof | config | cluster
  | eval | evalSha | v8 | v8Async | v8Call | v8Reload
  | other

/-- The procedures that extract keys. -/
inductive GetKeys where
  | noPreload | rename | zunionInter
  deriving DecidableEq, Repr

/-- A negative arity is a lower bound; a negative `lastkey` counts from the
end of the arguments. -/
structure RedisCommand where
  name : String
  proc : Proc
  arity : ℤ
  sflags : String
  getkeysProc : Option GetKeys
  firstkey : ℤ
  lastkey : ℤ
  keystep : ℤ

namespace RedisCommand

/-- `cmd->flags & …`, as `populateCommandTable` sets the flags. -/
def hasFlag (cmd : RedisCommand) (f : Char) : Bool :=
  cmd.sflags.toList.contains f

def write (cmd : RedisCommand) : Bool := cmd.hasFlag 'w'
def denyoom (cmd : RedisCommand) : Bool := cmd.hasFlag 'm'
def loading (cmd : RedisCommand) : Bool := cmd.hasFlag 'l'
def stale (cmd : RedisCommand) : Bool := cmd.hasFlag 't'

def arityOk (cmd : RedisCommand) (argc : ℕ) : Bool :=
  !(0 < cmd.arity && cmd.arity ≠ argc || (argc : ℤ) < -cmd.arity)

end RedisCommand

variable (int : Internals) (views : Views)

def stringTable : List RedisCommand :=
  [⟨"get", .data getCommand, 2, "r", none, 1, 1, 1⟩,
    ⟨"set", .data setCommand, -3, "wm", some .noPreload, 1, 1, 1⟩,
    ⟨"setnx", .data setnxCommand, 3, "wm", some .noPreload, 1, 1, 1⟩,
    ⟨"setex", .data setexCommand, 4, "wm", some .noPreload, 1, 1, 1⟩,
    ⟨"psetex", .data psetexCommand, 4, "wm", some .noPreload, 1, 1, 1⟩,
    ⟨"append", .data appendCommand, 3, "wm", none, 1, 1, 1⟩,
    ⟨"strlen", .data strlenCommand, 2, "r", none, 1, 1, 1⟩,
    ⟨"setbit", .data setbitCommand, 4, "wm", none, 1, 1, 1⟩,
    ⟨"getbit", .data getbitCommand, 3, "r", none, 1, 1, 1⟩,
    ⟨"setrange", .data setrangeCommand, 4, "wm", none, 1, 1, 1⟩,
    ⟨"getrange", .data getrangeCommand, 4, "r", none, 1, 1, 1⟩,
    ⟨"substr", .data getrangeCommand, 4, "r", none, 1, 1, 1⟩,
    ⟨"incr", .data incrCommand, 2, "wm", none, 1, 1, 1⟩,
    ⟨"decr", .data decrCommand, 2, "wm", none, 1, 1, 1⟩,
    ⟨"mget", .data mgetCommand, -2, "r", none, 1, -1, 1⟩,
    ⟨"incrby", .data incrbyCommand, 3, "wm", none, 1, 1, 1⟩,
    ⟨"decrby", .data decrbyCommand, 3, "wm", none, 1, 1, 1⟩,
    ⟨"incrbyfloat", .data (incrbyfloatCommand int), 3, "wm", none, 1, 1, 1⟩,
    ⟨"getset", .data getsetCommand, 3, "wm", none, 1, 1, 1⟩,
    ⟨"mset", .data msetCommand, -3, "wm", none, 1, -1, 2⟩,
    ⟨"msetnx", .data msetnxCommand, -3, "wm", none, 1, -1, 2⟩,
    ⟨"bitop", .data bitopCommand, -4, "wm", none, 2, -1, 1⟩,
    ⟨"bitcount", .data (bitcountCommand views), -2, "r", none, 1, 1, 1⟩]

def listTable : List RedisCommand :=
  [⟨"rpush", .data rpushCommand, -3, "wm", none, 1, 1, 1⟩,
    ⟨"lpush", .data lpushCommand, -3, "wm", none, 1, 1, 1⟩,
    ⟨"rpushx", .data (rpushxCommand int), 3, "wm", none, 1, 1, 1⟩,
    ⟨"lpushx", .data (lpushxCommand int), 3, "wm", none, 1, 1, 1⟩,
    ⟨"linsert", .data (linsertCommand int), 5, "wm", none, 1, 1, 1⟩,
    ⟨"rpop", .data (rpopCommand int), 2, "w", none, 1, 1, 1⟩,
    ⟨"lpop", .data (lpopCommand int), 2, "w", none, 1, 1, 1⟩,
    ⟨"brpop", .data brpopCommand, -3, "ws", none, 1, 1, 1⟩,
    ⟨"brpoplpush", .data brpoplpushCommand, 4, "wms", none, 1, 2, 1⟩,
    ⟨"blpop", .data blpopCommand, -3, "ws", none, 1, -2, 1⟩,
    ⟨"llen", .data (llenCommand int), 2, "r", none, 1, 1, 1⟩,
    ⟨"lindex", .data (lindexCommand int), 3, "r", none, 1, 1, 1⟩,
    ⟨"lset", .data (lsetCommand int), 4, "wm", none, 1, 1, 1⟩,
    ⟨"lrange", .data (lrangeCommand int), 4, "r", none, 1, 1, 1⟩,
    ⟨"ltrim", .data (ltrimCommand int), 4, "w", none, 1, 1, 1⟩,
    ⟨"lrem", .data (lremCommand int), 4, "w", none, 1, 1, 1⟩,
    ⟨"rpoplpush", .data rpoplpushCommand, 3, "wm", none, 1, 2, 1⟩]

def setTable : List RedisCommand :=
  [⟨"sadd", .data saddCommand, -3, "wm", none, 1, 1, 1⟩,
    ⟨"srem", .data sremCommand, -3, "w", none, 1, 1, 1⟩,
    ⟨"smove", .data smoveCommand, 4, "w", none, 1, 2, 1⟩,
    ⟨"sismember", .data sismemberCommand, 3, "r", none, 1, 1, 1⟩,
    ⟨"scard", .data scardCommand, 2, "r", none, 1, 1, 1⟩,
    ⟨"spop", .data spopCommand, 2, "wRs", none, 1, 1, 1⟩,
    ⟨"srandmember", .data (srandmemberCommand views), -2, "rR", none, 1, 1, 1⟩,
    ⟨"sinter", .data (sinterCommand int), -2, "rS", none, 1, -1, 1⟩,
    ⟨"sinterstore", .data sinterstoreCommand, -3, "wm", none, 1, -1, 1⟩,
    ⟨"sunion", .data (sunionCommand int), -2, "rS", none, 1, -1, 1⟩,
    ⟨"sunionstore", .data sunionstoreCommand, -3, "wm", none, 1, -1, 1⟩,
    ⟨"sdiff", .data (sdiffCommand int), -2, "rS", none, 1, -1, 1⟩,
    ⟨"sdiffstore", .data sdiffstoreCommand, -3, "wm", none, 1, -1, 1⟩,
    ⟨"smembers", .data (sinterCommand int), 2, "rS", none, 1, 1, 1⟩,
    ⟨"sscan", .data (sscanCommand views), -3, "rR", none, 1, 1, 1⟩]

def hashTable : List RedisCommand :=
  [⟨"hset", .data hsetCommand, 4, "wm", none, 1, 1, 1⟩,
    ⟨"hsetnx", .data hsetnxCommand, 4, "wm", none, 1, 1, 1⟩,
    ⟨"hget", .data hgetCommand, 3, "r", none, 1, 1, 1⟩,
    ⟨"hmset", .data hmsetCommand, -4, "wm", none, 1, 1, 1⟩,
    ⟨"hmget", .data hmgetCommand, -3, "r", none, 1, 1, 1⟩,
    ⟨"hincrby", .data hincrbyCommand, 4, "wm", none, 1, 1, 1⟩,
    ⟨"hincrbyfloat", .data (hincrbyfloatCommand int), 4, "wm", none, 1, 1, 1⟩,
    ⟨"hdel", .data hdelCommand, -3, "w", none, 1, 1, 1⟩,
    ⟨"hlen", .data hlenCommand, 2, "r", none, 1, 1, 1⟩,
    ⟨"hkeys", .data (hkeysCommand views), 2, "rS", none, 1, 1, 1⟩,
    ⟨"hvals", .data (hvalsCommand views), 2, "rS", none, 1, 1, 1⟩,
    ⟨"hgetall", .data (hgetallCommand views), 2, "r", none, 1, 1, 1⟩,
    ⟨"hexists", .data hexistsCommand, 3, "r", none, 1, 1, 1⟩,
    ⟨"hscan", .data (hscanCommand views), -3, "rR", none, 1, 1, 1⟩]

def zsetTable : List RedisCommand :=
  [⟨"zadd", .data (zaddCommand int), -4, "wm", none, 1, 1, 1⟩,
    ⟨"zincrby", .data (zincrbyCommand int), 4, "wm", none, 1, 1, 1⟩,
    ⟨"zrem", .data zremCommand, -3, "w", none, 1, 1, 1⟩,
    ⟨"zremrangebyscore", .data (zremrangebyscoreCommand int), 4,
      "w", none, 1, 1, 1⟩,
    ⟨"zremrangebyrank", .data (zremrangebyrankCommand int), 4,
      "w", none, 1, 1, 1⟩,
    ⟨"zunionstore", .data (zunionstoreCommand int), -4,
      "wm", some .zunionInter, 0, 0, 0⟩,
    ⟨"zinterstore", .data (zinterstoreCommand int), -4,
      "wm", some .zunionInter, 0, 0, 0⟩,
    ⟨"zrange", .data (zrangeCommand views), -4, "r", none, 1, 1, 1⟩,
    ⟨"zrangebyscore", .data (zrangebyscoreCommand views), -4,
      "r", none, 1, 1, 1⟩,
    ⟨"zrevrangebyscore", .data (zrevrangebyscoreCommand views), -4,
      "r", none, 1, 1, 1⟩,
    ⟨"zcount", .data (zcountCommand views), 4, "r", none, 1, 1, 1⟩,
    ⟨"zrevrange", .data (zrevrangeCommand views), -4, "r", none, 1, 1, 1⟩,
    ⟨"zcard", .data zcardCommand, 2, "r", none, 1, 1, 1⟩,
    ⟨"zscore", .data (zscoreCommand int), 3, "r", none, 1, 1, 1⟩,
    ⟨"zrank", .data (zrankCommand views), 3, "r", none, 1, 1, 1⟩,
    ⟨"zrevrank", .data (zrevrankCommand views), 3, "r", none, 1, 1, 1⟩,
    ⟨"zscan", .data (zscanCommand views), -3, "rR", none, 1, 1, 1⟩]

/-- The commands on keys of any type. -/
def genericTable : List RedisCommand :=
  [⟨"del", .data delCommand, -2, "w", some .noPreload, 1, -1, 1⟩,
    ⟨"exists", .data existsCommand, 2, "r", none, 1, 1, 1⟩,
    ⟨"randomkey", .data randomkeyCommand, 1, "rR", none, 0, 0, 0⟩,
    ⟨"select", .data (selectCommand int), 2, "rl", none, 0, 0, 0⟩,
    ⟨"move", .data (moveCommand int), 3, "w", none, 1, 1, 1⟩,
    ⟨"rename", .data renameCommand, 3, "w", some .rename, 1, 2, 1⟩,
    ⟨"renamenx", .data renamenxCommand, 3, "w", some .rename, 1, 2, 1⟩,
    ⟨"expire", .data expireCommand, 3, "w", none, 1, 1, 1⟩,
    ⟨"expireat", .data expireatCommand, 3, "w", none, 1, 1, 1⟩,
    ⟨"pexpire", .data pexpireCommand, 3, "w", none, 1, 1, 1⟩,
    ⟨"pexpireat", .data pexpireatCommand, 3, "w", none, 1, 1, 1⟩,
    ⟨"keys", .data (keysCommand views), 2, "rS", none, 0, 0, 0⟩,
    ⟨"scan", .data (scanCommand views), -2, "rR", none, 0, 0, 0⟩,
    ⟨"dbsize", .data dbsizeCommand, 1, "r", none, 0, 0, 0⟩,
    ⟨"type", .data typeCommand, 2, "r", none, 1, 1, 1⟩,
    ⟨"flushdb", .data flushdbCommand, 1, "w", none, 0, 0, 0⟩,
    ⟨"flushall", .data (flushallCommand int), 1, "w", none, 0, 0, 0⟩,
    ⟨"sort", .data (sortCommand int views), -2, "wm", none, 1, 1, 1⟩,
    ⟨"ttl", .data ttlCommand, 2, "r", none, 1, 1, 1⟩,
    ⟨"pttl", .data pttlCommand, 2, "r", none, 1, 1, 1⟩,
    ⟨"persist", .data persistCommand, 2, "w", none, 1, 1, 1⟩,
    ⟨"debug", .data views.debug, -2, "as", none, 0, 0, 0⟩,
    ⟨"restore", .data (restoreCommand int), -4, "awm", none, 1, 1, 1⟩,
    ⟨"restore-asking", .data (restoreCommand int), -4, "awmk", none, 1, 1, 1⟩,
    ⟨"migrate", .data migrateCommand, -6, "aw", none, 0, 0, 0⟩,
    ⟨"dump", .data (dumpCommand views), 2, "ar", none, 1, 1, 1⟩,
    ⟨"object", .data (objectCommand views), -2, "r", none, 2, 2, 2⟩]

/-- The commands on the server, and the scripts. -/
def serverTable : List RedisCommand :=
  [⟨"js", .v8, 2, "wm", none, 1, 1, 1⟩,
    ⟨"jsa", .v8Async, 2, "wm", none, 1, 1, 1⟩,
    ⟨"jscall", .v8Call, -2, "wm", none, 1, 1, 1⟩,
    ⟨"jsreload", .v8Reload, 1, "r", none, 1, 1, 1⟩,
    ⟨"auth", .auth, 2, "rslt", none, 0, 0, 0⟩,
    ⟨"ping", .ping, 1, "rt", none, 0, 0, 0⟩,
    ⟨"echo", .other, 2, "r", none, 0, 0, 0⟩,
    ⟨"save", .other, 1, "ars", none, 0, 0, 0⟩,
    ⟨"bgsave", .other, 1, "ar", none, 0, 0, 0⟩,
    ⟨"bgrewriteaof", .other, 1, "ar", none, 0, 0, 0⟩,
    ⟨"shutdown", .shutdown, -1, "arl", none, 0, 0, 0⟩,
    ⟨"lastsave", .other, 1, "rR", none, 0, 0, 0⟩,
    ⟨"multi", .multi, 1, "rs", none, 0, 0, 0⟩,
    ⟨"exec", .exec, 1, "sM", none, 0, 0, 0⟩,
    ⟨"discard", .discard, 1, "rs", none, 0, 0, 0⟩,
    ⟨"sync", .other, 1, "ars", none, 0, 0, 0⟩,
    ⟨"psync", .other, 3, "ars", none, 0, 0, 0⟩,
    ⟨"replconf", .replconf, -1, "arslt", none, 0, 0, 0⟩,
    ⟨"info", .other, -1, "rlt", none, 0, 0, 0⟩,
    ⟨"monitor", .other, 1, "ars", none, 0, 0, 0⟩,
    ⟨"slaveof", .slaveof, 3, "ast", none, 0, 0, 0⟩,
    ⟨"config", .config, -2, "ar", none, 0, 0, 0⟩,
    ⟨"subscribe", .subscribe, -2, "rpslt", none, 0, 0, 0⟩,
    ⟨"unsubscribe", .unsubscribe, -1, "rpslt", none, 0, 0, 0⟩,
    ⟨"psubscribe", .psubscribe, -2, "rpslt", none, 0, 0, 0⟩,
    ⟨"punsubscribe", .punsubscribe, -1, "rpslt", none, 0, 0, 0⟩,
    ⟨"publish", .other, 3, "pltr", none, 0, 0, 0⟩,
    ⟨"pubsub", .other, -2, "pltrR", none, 0, 0, 0⟩,
    ⟨"watch", .watch, -2, "rs", some .noPreload, 1, -1, 1⟩,
    ⟨"unwatch", .unwatch, 1, "rs", none, 0, 0, 0⟩,
    ⟨"cluster", .cluster, -2, "ar", none, 0, 0, 0⟩,
    ⟨"asking", .asking, 1, "r", none, 0, 0, 0⟩,
    ⟨"client", .other, -2, "ar", none, 0, 0, 0⟩,
    ⟨"eval", .eval, -3, "s", some .zunionInter, 0, 0, 0⟩,
    ⟨"evalsha", .evalSha, -3, "s", some .zunionInter, 0, 0, 0⟩,
    ⟨"slowlog", .other, -2, "r", none, 0, 0, 0⟩,
    ⟨"script", .script, -2, "ras", none, 0, 0, 0⟩,
    ⟨"time", .other, 1, "rR", none, 0, 0, 0⟩,
    ⟨"wait", .other, 3, "rs", none, 0, 0, 0⟩]

def redisCommandTable : List RedisCommand :=
  stringTable int views ++ listTable int ++ setTable int views ++
    hashTable int views ++ zsetTable int views ++ genericTable int views ++
    serverTable

/-- The names are compared without regard to case. -/
def lookupCommand (name : Bytes) : Option RedisCommand :=
  (redisCommandTable int views).find? fun cmd => isText cmd.name name

/-! ## An instance of the parameters -/

def someInternals : Internals where
  dbnum := 16
  dbnum_lt := by decide
  cluster := false
  index := id
  isFloat _ := false
  add s _ := s
  isFinite _ := true
  score := some
  addScore s _ := some s
  scoreText := id
  inRange _ _ := none
  ranked _ := []
  combine _ _ _ := .ok ∅
  enumerate _ := []
  load _ := .error Reply.syntaxerr

/-- SORT is given with ALPHA and without BY, or words that are no numbers. -/
def someViews : Views where
  check _ _ := none
  view _ _ _ := .nullBulk
  objectReply _ := .nullBulk
  visited _ keys := keys
  nextCursor _ _ := ascii "0"
  stringmatch _ _ := true
  sorted argv elements :=
    match parseSortOptions argv.length (argv.drop 2) SortOptions.none with
    | .error r => .error r
    | .ok o =>
      if o.alpha = true ∧ o.sortby = none then
        .ok ⟨(elements.map Prod.fst).insertionSort
          fun a b => if o.desc then b ≤ a else a ≤ b, List.perm_insertionSort _ _⟩
      else
        .error (errorReply "One or more scores can't be converted into double")
  debug _ _ := addReply Reply.ok

end RedisV8.Commands

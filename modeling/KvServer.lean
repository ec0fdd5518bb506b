import KvServer.Codec.Bytes
import KvServer.Codec.Numeric
import KvServer.Codec.Request
import KvServer.Codec.Response
import KvServer.Buffer.Basic
import KvServer.Buffer.Refine
import KvServer.Buffer.Boundary
import KvServer.Store.Containers
import KvServer.Store.Db
import KvServer.Store.Commands
import KvServer.Store.Invariant
import KvServer.Store.Abstract
import KvServer.Store.Expire
import KvServer.Store.Zquery
import KvServer.Server.Response
import KvServer.Aof.Log
import KvServer.Server.Request
import KvServer.Aof.Replay
import KvServer.Aof.Recovery
import KvServer.Server.Conn
import KvServer.Server.Loop
import KvServer.Server.Idle
import KvServer.Server.Timeout
import KvServer.Server.Reply
import KvServer.Server.Serial
import KvServer.Server.Linear
import KvServer.Aof.Durability
import KvServer.Aof.Rewrite
import KvServer.Aof.Compaction
